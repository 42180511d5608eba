import Apportion.Proofs.Path.Siblings

/-!
Stems of files that share a name. No compound extension ends in another, so that one that a file name
ends in is its extension (`extensionOf_of_compound`), and with `.map` behind it a name keeps its
extension in front of that or has `.map` alone (`extensionOf_append_map`). Hence two code files, neither
of which has the extension `.map`, have a name among their files in common only if they have the same
stem (`stem_eq_of_shared`).
-/
namespace Apportion.Path

/-! ## Extensions by their text -/

theorem eq_of_compound_isSuffix : ∀ e ∈ compoundExtensions, ∀ e' ∈ compoundExtensions,
    e.toList <:+ e'.toList → e = e' := by decide

/-- A file name ends in one compound extension at most. -/
theorem eq_of_compound {e e' : String} {name : List Char} (he : e ∈ compoundExtensions)
    (he' : e' ∈ compoundExtensions) (fits : e.toList <:+ name) (fits' : e'.toList <:+ name) :
    e = e' :=
  (List.suffix_or_suffix_of_suffix fits fits').elim (eq_of_compound_isSuffix e he e' he')
    fun back => (eq_of_compound_isSuffix e' he' e he back).symm

theorem extensionOf_of_compound {name e : String} (he : e ∈ compoundExtensions)
    (fits : e.toList <:+ name.toList) (ne : name ≠ e) : extensionOf name = e := by
  unfold extensionOf
  split
  · rename_i e' found
    have fits' := List.find?_some found
    rw [Bool.and_eq_true, List.isSuffixOf_iff_suffix] at fits'
    exact (eq_of_compound he (List.mem_of_find?_eq_some found) fits fits'.2).symm
  · rename_i none
    refine absurd ?_ (List.find?_eq_none.mp none e he)
    simp [ne, fits]

/-- Where no compound extension fits, the extension begins at the last dot that is not in front. -/
theorem extensionOf_of_simple {name : String} {front tail : List Char} (ne : front ≠ [])
    (dotless : '.' ∉ tail) (whole : name.toList = front ++ '.' :: tail)
    (simple : ∀ e ∈ compoundExtensions, e.toList <:+ name.toList → name = e) :
    extensionOf name = String.ofList ('.' :: tail) := by
  have none : compoundExtensions.find? (fun e => name ≠ e && e.toList.isSuffixOf name.toList) = none := by
    refine List.find?_eq_none.mpr fun e he => ?_
    rw [Bool.and_eq_true, List.isSuffixOf_iff_suffix, decide_eq_true_eq]
    exact fun ⟨differs, fits⟩ => differs (simple e he fits)
  obtain ⟨c, rest, rfl⟩ := List.exists_cons_of_ne_nil ne
  have last : ∀ d ∈ tail.reverse, decide (d ≠ '.') = true := fun d hd =>
    decide_eq_true fun is => dotless (is ▸ List.mem_reverse.mp hd)
  have own : simpleExtension (c :: (rest ++ '.' :: tail)) = '.' :: tail := by
    simp only [simpleExtension, List.mem_append, List.mem_cons, true_or, or_true, ↓reduceIte,
      List.reverse_append, List.reverse_cons, List.append_assoc]
    rw [List.takeWhile_append_of_pos last]
    simp
  simp only [extensionOf, none]
  rw [whole, List.cons_append, own]

/-! ## Maps -/

/-- The extensions that go with `.map` into one compound extension. -/
def mappedExtensions : List String := [".d.ts", ".d.mts", ".d.cts", ".js", ".mjs", ".cjs"]

theorem exists_mapped : ∀ e ∈ compoundExtensions, ".map".toList <:+ e.toList →
    ∃ x ∈ mappedExtensions, e = x ++ ".map" := by decide

/-- Such an extension is compound itself, or a simple one that has nothing to do with those. -/
theorem mapped_cases : ∀ x ∈ mappedExtensions, x ∈ compoundExtensions ∨
    (x.toList = '.' :: x.toList.tail ∧ '.' ∉ x.toList.tail ∧
      ∀ e ∈ compoundExtensions, ¬ e.toList <:+ x.toList ∧ ¬ x.toList <:+ e.toList) := by decide

theorem extensionOf_of_mapped {name x : String} (hx : x ∈ mappedExtensions)
    (fits : x.toList <:+ name.toList) (ne : name ≠ x) : extensionOf name = x := by
  rcases mapped_cases x hx with compound | ⟨dot, dotless, apart⟩
  · exact extensionOf_of_compound compound fits ne
  · obtain ⟨front, whole⟩ := id fits
    have some : front ≠ [] := by
      rintro rfl
      exact ne (String.toList_inj.mp whole.symm)
    rw [dot] at whole
    rw [extensionOf_of_simple some dotless whole.symm, ← dot, String.ofList_toList]
    intro e he ends
    exact ((List.suffix_or_suffix_of_suffix ends fits).elim (apart e he).1 (apart e he).2).elim

theorem extensionOf_append_mapped {t x : String} (some : t ≠ "") (hx : x ∈ mappedExtensions) :
    extensionOf (t ++ x) = x :=
  extensionOf_of_mapped hx ⟨t.toList, String.toList_append.symm⟩ fun same => some (by simpa using same)

theorem long_of_mapped : ∀ x ∈ mappedExtensions, '/' ∉ x.toList ∧ 2 < x.toList.length := by decide

theorem isName_of_mapped (p : Path) {x : String} (hx : x ∈ mappedExtensions) : IsName (p.stem ++ x) :=
  p.isName_stem_append_of_long (long_of_mapped x hx).1 (long_of_mapped x hx).2

theorem toList_append_map (s : String) :
    (s ++ ".map").toList = s.toList ++ ['.', 'm', 'a', 'p'] := by
  rw [String.toList_append]
  rfl

theorem length_map_le : ∀ e ∈ compoundExtensions, ".map".toList.length ≤ e.toList.length := by decide

/-- A name that goes on with `.map` has that as its extension, or its own with `.map` behind it. -/
theorem extensionOf_append_map {f : String} (ne : f ≠ "") :
    extensionOf (f ++ ".map") = ".map" ∨ extensionOf (f ++ ".map") = extensionOf f ++ ".map" := by
  have text := toList_append_map f
  by_cases compound : ∃ e ∈ compoundExtensions, e.toList <:+ (f ++ ".map").toList ∧ f ++ ".map" ≠ e
  · obtain ⟨e, he, fits, differs⟩ := compound
    have ends : ".map".toList <:+ (f ++ ".map").toList := ⟨f.toList, text.symm⟩
    obtain ⟨x, hx, rfl⟩ := exists_mapped e he
      (List.suffix_of_suffix_length_le ends fits (length_map_le e he))
    obtain ⟨front, whole⟩ := id fits
    rw [toList_append_map, text, ← List.append_assoc] at whole
    have own : extensionOf f = x :=
      extensionOf_of_mapped hx ⟨front, List.append_cancel_right whole⟩ fun is => differs (is ▸ rfl)
    exact .inr (by rw [extensionOf_of_compound he fits differs, own])
  · refine .inl (extensionOf_of_simple (by simpa using ne) (by decide) text fun e he fits => ?_)
    exact Classical.byContradiction fun differs => compound ⟨e, he, fits, differs⟩

/-! ## Files of code files -/

/-- What stands before the extension of a file name is the stem. -/
theorem stem_eq_of_append {p : Path} {s t x : String} (named : p.fileName = some s)
    (own : extensionOf s = x) (whole : t ++ x = s) : p.stem = t := by
  have parts := stem_append_extension named
  have extended : p.extension = x := by simp [extension, named, own]
  rw [extended, ← whole, String.append_left_inj] at parts
  exact parts

/-- A file of a code file shows the code file's stem: if it is a map by its own name, then it is the
code file with `.map` behind, and otherwise it is the stem with its extension. -/
theorem sibling_cases {p : Path} {f x : String} (named : p.fileName = some f)
    (code : p.extension ≠ ".map") (hx : x ∈ p.siblingExtensions) :
    extensionOf (p.stem ++ x) = ".map" ∧ p.stem ++ x = f ++ ".map" ∨
      extensionOf (p.stem ++ x) ≠ ".map" ∧ extensionOf (p.stem ++ x) = x := by
  have own : p.extension = extensionOf f := by simp [extension, named]
  have whole := stem_append_extension named
  have some := stem_ne_empty named
  have constant {e : String} (he : e ∈ compoundExtensions) : extensionOf (p.stem ++ e) = e := by
    refine extensionOf_of_compound he ⟨p.stem.toList, (String.toList_append).symm⟩ fun same => some ?_
    simpa using same
  simp only [siblingExtensions, List.mem_cons, List.not_mem_nil, or_false] at hx
  rcases hx with rfl | rfl | rfl | rfl
  · rw [whole, ← own]
    exact .inr ⟨code, rfl⟩
  · rw [← String.append_assoc, whole]
    by_cases map : extensionOf (f ++ ".map") = ".map"
    · exact .inl ⟨map, rfl⟩
    · rw [own]
      exact .inr ⟨map, (extensionOf_append_map (of_fileName named).1.1).resolve_left map⟩
  · rw [constant (by decide)]
    exact .inr ⟨by decide, rfl⟩
  · rw [constant (by decide)]
    exact .inr ⟨by decide, rfl⟩

/-- Code files with a file in common have the same stem. -/
theorem stem_eq_of_shared {p q : Path} {f g x y : String} (pf : p.fileName = some f)
    (qg : q.fileName = some g) (code : p.extension ≠ ".map") (code' : q.extension ≠ ".map")
    (hx : x ∈ p.siblingExtensions) (hy : y ∈ q.siblingExtensions) (same : p.stem ++ x = q.stem ++ y) :
    p.stem = q.stem := by
  have hq := sibling_cases qg code' hy
  rw [← same] at hq
  rcases sibling_cases pf code hx with ⟨map, hp⟩ | ⟨other, hp⟩
  · have names : f ++ ".map" = g ++ ".map" :=
      hp.symm.trans (hq.resolve_right fun no => no.1 map).2
    rw [String.append_left_inj] at names
    exact stem_congr (by rw [pf, qg, names])
  · have ends : x = y := hp.symm.trans (hq.resolve_left fun no => other no.1).2
    rw [ends, String.append_left_inj] at same
    exact same

end Apportion.Path
