import Apportion.Proofs.Path.Extension
import Apportion.Proofs.Path.Relative

/-!
Files beside a file. The parent of a path has all of its components but the last
(`components_parent`). With another extension in place of its own a path leads to a file in the same
directory (`components_withExtension`), and what it ends in is a name for each extension that the
files of one code file have (`isName_stem_append`).
-/
namespace Apportion.Path
open Text

/-! ## The directory of a file -/

theorem components_parent {p dir : Path} (h : p.parent = some dir) :
    ∃ c, p.components = dir.components ++ [c] := by
  unfold parent at h
  split at h
  · rename_i none
    split at h
    · rename_i current
      cases h
      refine ⟨.current, ?_⟩
      rw [components_of_start current, ← filterMap_dropEndWhile_idle, none]
      rfl
    · cases h
  · rename_i body ne
    cases h
    obtain ⟨init, last, e⟩ := (List.eq_nil_or_concat (dropEndWhile isIdle p.body)).resolve_left ne
    rw [List.concat_eq_append] at e
    obtain ⟨sub, busy⟩ := of_dropEndWhile e
    rw [isIdle, Option.isNone_eq_false_iff] at busy
    obtain ⟨c, hc⟩ := Option.isSome_iff_exists.mp busy
    refine ⟨c, ?_⟩
    rw [e, List.dropLast_concat, components_ofParts sub, components, ← filterMap_dropEndWhile_idle p.body,
      e, List.filterMap_append, List.filterMap_cons_some hc, List.filterMap_nil, List.append_assoc]

theorem components_withFileName {p : Path} {s t : String} (h : p.fileName = some s) (ht : IsName t) :
    (p.withFileName t).components = p.components.dropLast ++ [.name t] := by
  obtain ⟨dir, parent⟩ := exists_parent h
  obtain ⟨c, e⟩ := components_parent parent
  have whole : p.withFileName t = dir.join ⟨t⟩ := by rw [withFileName, h, parent]
  rw [whole, components_join_name dir ht, e, List.dropLast_concat]

/-! ## Other extensions -/

theorem isName_of_long {s : String} (slash : '/' ∉ s.toList) (long : 2 < s.toList.length) :
    IsName s := by
  refine ⟨?_, ?_, ?_, slash⟩ <;> rintro rfl <;> exact absurd long (by decide)

theorem slash_not_mem_extension (p : Path) : '/' ∉ p.extension.toList := by
  cases h : p.fileName with
  | none => simp [extension, h]
  | some s =>
    rw [extension, h, Option.map_some, Option.getD_some]
    exact fun slash => (of_fileName h).1.2.2.2 ((extensionOf_isSuffix s).subset slash)

/-- The extensions of a code file, its declaration, and the position maps of both. -/
def siblingExtensions (p : Path) : List String :=
  [p.extension, p.extension ++ ".map", ".d.ts", ".d.ts.map"]

/-- A long extension makes a name of any stem, also if that is made of dots. -/
theorem isName_stem_append_of_long (p : Path) {e : String} (slash : '/' ∉ e.toList)
    (long : 2 < e.toList.length) : IsName (p.stem ++ e) := by
  refine isName_of_long ?_ ?_
  · rw [String.toList_append, List.mem_append]
    exact fun mem => mem.elim p.slash_not_mem_stem slash
  · rw [String.toList_append, List.length_append]
    exact Nat.lt_of_lt_of_le long (Nat.le_add_left _ _)

/-- The extensions of a code file's other files are long. -/
theorem long_of_sibling {p : Path} {e : String} (he : e ∈ p.siblingExtensions)
    (other : e ≠ p.extension) : '/' ∉ e.toList ∧ 2 < e.toList.length := by
  simp only [siblingExtensions, List.mem_cons, List.not_mem_nil, or_false] at he
  rcases he with rfl | rfl | rfl | rfl
  · exact absurd rfl other
  · rw [String.toList_append, List.mem_append, List.length_append]
    exact ⟨fun mem => mem.elim p.slash_not_mem_extension (by decide),
      Nat.lt_of_lt_of_le (by decide) (Nat.le_add_left _ _)⟩
  · decide
  · decide

/-- The stem of a file name makes a name with each extension. -/
theorem isName_stem_append {p : Path} {s e : String} (h : p.fileName = some s)
    (he : e ∈ p.siblingExtensions) : IsName (p.stem ++ e) := by
  by_cases own : e = p.extension
  · rw [own, stem_append_extension h]
    exact (of_fileName h).1
  · obtain ⟨slash, long⟩ := long_of_sibling he own
    exact p.isName_stem_append_of_long slash long

theorem stem_congr {p q : Path} (h : p.fileName = q.fileName) : p.stem = q.stem := by
  simp [stem, extension, h]

/-- A file with another extension lies in the same directory, and has the same stem. -/
theorem components_withExtension {p : Path} {s e : String} (h : p.fileName = some s)
    (name : IsName (p.stem ++ e)) :
    (p.withExtension e).components = p.components.dropLast ++ [.name (p.stem ++ e)] :=
  components_withFileName h name

/-- Files of one name have one name with another extension too. -/
theorem components_withExtension_append {p q : Path} {front : List Component} {s e : String}
    (whole : p.components = front ++ [.name s]) (h : q.fileName = some s) (name : IsName (q.stem ++ e)) :
    (p.withExtension e).components = front ++ [.name (q.stem ++ e)] := by
  have last : p.fileName = some s := by simp [fileName, whole]
  have stem := stem_congr (last.trans h.symm)
  rw [← stem] at name ⊢
  rw [components_withExtension last name, whole, List.dropLast_concat]

/-- With its own extension a file stays where it is. -/
theorem components_withExtension_self {p : Path} {s : String} (h : p.fileName = some s) :
    (p.withExtension p.extension).components = p.components := by
  have whole := stem_append_extension h
  obtain ⟨name, front, e⟩ := of_fileName h
  rw [← whole] at name
  rw [components_withExtension h name, whole, e, List.dropLast_concat]

end Apportion.Path
