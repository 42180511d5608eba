import Apportion.Proofs.Path.Relative

/-!
Texts behind a path. An extension that is put behind a path in normal form goes behind its last name
(`append_eq_join`), so that the path with it lies beside the path; where there is no name it lies right
below the root at most (`place_append`).
-/
namespace Apportion.Path
open Text

/-- A text that goes behind file names: a dot in front, and no slash. -/
def IsExtension (x : String) : Prop := x.toList.head? = some '.' ∧ '/' ∉ x.toList

instance (x : String) : Decidable (IsExtension x) := inferInstanceAs (Decidable (_ ∧ _))

variable {x : String}

theorem IsExtension.exists_toList (h : IsExtension x) : ∃ more, x.toList = '.' :: more :=
  List.head?_eq_some_iff.mp h.1

theorem IsExtension.isName_append (h : IsExtension x) {s : String} (name : IsName s) :
    IsName (s ++ x) := by
  obtain ⟨more, dot⟩ := h.exists_toList
  obtain ⟨c, rest, first⟩ := List.exists_cons_of_ne_nil (mt String.toList_eq_nil_iff.mp name.1)
  have whole : (s ++ x).toList = c :: (rest ++ '.' :: more) := by
    rw [String.toList_append, first, dot, List.cons_append]
  refine ⟨fun e => ?_, fun e => ?_, fun e => ?_, ?_⟩
  · simp [e] at whole
  · simp [e] at whole
  · rw [e] at whole
    obtain ⟨rfl, rest, -⟩ : '.' = c ∧ rest = [] ∧ more = [] := by
      cases rest with
      | nil => simpa using whole
      | cons d rest => cases rest <;> simp at whole
    exact name.2.1 (String.toList_inj.mp (by rw [first, rest]; rfl))
  · rw [String.toList_append, List.mem_append]
    exact fun slash => slash.elim name.2.2.2 h.2

theorem isAbsolute_of_slash_free {s : String} (h : '/' ∉ s.toList) :
    (Path.mk s).isAbsolute = false := by
  rw [← Bool.not_eq_true, isAbsolute_iff_head]
  exact fun first => h (List.mem_of_head? first)

/-- What is put behind a path goes behind its last segment. -/
theorem join_append (dir : Path) {s y : String} (last : '/' ∉ s.toList) (more : '/' ∉ y.toList) :
    (⟨(dir.join ⟨s⟩).text ++ y⟩ : Path) = dir.join ⟨s ++ y⟩ := by
  have both : '/' ∉ (s ++ y).toList := by
    rw [String.toList_append, List.mem_append]
    exact fun slash => slash.elim last more
  unfold join
  rw [isAbsolute_of_slash_free last, isAbsolute_of_slash_free both]
  simp only [Bool.false_eq_true, ↓reduceIte]
  split <;> simp [String.append_assoc]

theorem append_eq_join {cs : List Component} {c : Component} {y : String}
    (last : '/' ∉ c.text.toList) (more : '/' ∉ y.toList) :
    (⟨(ofComponents (cs ++ [c])).text ++ y⟩ : Path) = (ofComponents cs).join ⟨c.text ++ y⟩ := by
  rw [ofComponents_snoc]
  exact join_append _ last more

theorem start_of_slash_free {s : String} (h : '/' ∉ s.toList) (ne : s ≠ ".") :
    (Path.mk s).start = none := by
  have dot : s.toList ≠ ['.'] := fun e => ne (String.toList_inj.mp e)
  simp [start_eq, segments, split_eq_singleton h, dot]

/-- A text without slashes below the root lies right below it, if not there. -/
theorem place_join_short {p : Path} (top : p.place = []) {y : String} (h : '/' ∉ y.toList)
    (front : p.text ≠ "" ∨ y ≠ ".") : (p.join ⟨y⟩).place.length ≤ 1 := by
  have single : (Path.mk y).segments = [y.toList] := split_eq_singleton h
  have empty : p.components.foldl descend [] = [] := by
    rw [place_eq] at top
    simpa using top
  rw [place_eq, components_join (isAbsolute_of_slash_free h) (front.imp_right (start_of_slash_free h)),
    List.foldl_append, empty, steps, single, List.filterMap_cons]
  rcases hs : Component.ofSegment y.toList with - | - | - | - | s <;> simp [descend]

theorem place_parents (n : Nat) : (ofComponents (List.replicate n .parent)).place = [] := by
  have form : NormalForm (List.replicate n Component.parent) :=
    ⟨_, [], .inr ⟨n, rfl⟩, by simp, by simp⟩
  rw [place_eq, components_ofComponents form]
  induction n with
  | zero => rfl
  | succ n ih =>
    rw [List.replicate_succ, List.foldl_cons]
    exact ih ⟨_, [], .inr ⟨n, rfl⟩, by simp, by simp⟩

theorem root_append (h : '/' ∉ x.toList) :
    (⟨(ofComponents [.root]).text ++ x⟩ : Path) = (ofComponents [.root]).join ⟨x⟩ := by
  have root : ofComponents [.root] = ⟨"/"⟩ := rfl
  rw [root, join, isAbsolute_of_slash_free h]
  rfl

theorem empty_append (h : '/' ∉ x.toList) :
    (⟨(ofComponents []).text ++ x⟩ : Path) = (ofComponents []).join ⟨x⟩ := by
  have empty : ofComponents [] = ⟨""⟩ := rfl
  rw [empty, join, isAbsolute_of_slash_free h]
  rfl

/-- A path with an extension lies beside the path. Where the path leads to the root, it lies right
below the root, if not there. -/
theorem place_append (q : Path) (h : IsExtension x) :
    (∃ front s, q.normalize.place = front ++ [s] ∧
      (Path.mk (q.normalize.text ++ x)).place = front ++ [s ++ x]) ∨
    (q.normalize.place = [] ∧ (Path.mk (q.normalize.text ++ x)).place.length ≤ 1) := by
  have form := normalForm_normalComponents q
  rw [normalize]
  generalize normalComponents q.components = cs at form
  obtain ⟨front, names, hf, hn, rfl⟩ := form
  rcases List.eq_nil_or_concat names with rfl | ⟨init, last, rfl⟩
  · rw [List.map_nil, List.append_nil]
    refine .inr ?_
    rcases hf with rfl | ⟨n, rfl⟩
    · exact ⟨by decide, root_append h.2 ▸ place_join_short (by decide) h.2 (.inl (by decide))⟩
    · refine ⟨place_parents n, ?_⟩
      cases n with
      | zero =>
        by_cases dot : x = "."
        · rw [dot]
          decide
        · exact empty_append h.2 ▸ place_join_short (by decide) h.2 (.inr dot)
      | succ n =>
        obtain ⟨more, head⟩ := h.exists_toList
        have whole : (".." ++ x).toList = '.' :: '.' :: '.' :: more := by
          rw [String.toList_append, head]
          rfl
        rw [List.replicate_succ', append_eq_join (by decide) h.2]
        refine place_join_short (place_parents n) ?_ (.inr fun e => ?_)
        · have slash := h.2
          rw [head] at slash
          simpa [Component.text, whole] using slash
        · rw [show Component.parent.text = ".." from rfl] at e
          simp [e] at whole
  · have name : IsName last := hn last (by simp)
    refine .inl ⟨(ofComponents (front ++ init.map .name)).place, last, ?_, ?_⟩ <;>
      rw [List.concat_eq_append, List.map_append, List.map_singleton, ← List.append_assoc]
    · rw [ofComponents_snoc]
      exact place_join_name _ name
    · rw [append_eq_join (c := .name last) name.2.2.2 h.2]
      exact place_join_name _ (h.isName_append name)

/-- A path with an extension lies below the directories that the path lies below, and below no
others. -/
theorem below_append_iff (q : Path) (h : IsExtension x) {root : Key} (ne : root ≠ []) :
    (root <+: (Path.mk (q.normalize.text ++ x)).place ∧
        root ≠ (Path.mk (q.normalize.text ++ x)).place) ↔
      root <+: q.normalize.place ∧ root ≠ q.normalize.place := by
  have beside (front : Key) (s : String) :
      (root <+: front ++ [s] ∧ root ≠ front ++ [s]) ↔ root <+: front := by
    rw [List.prefix_concat_iff]
    refine ⟨fun ⟨below, ne⟩ => below.resolve_left ne, fun below => ⟨.inr below, ?_⟩⟩
    rintro rfl
    have longer := below.length_le
    rw [List.length_append, List.length_singleton] at longer
    omega
  rcases place_append q h with ⟨front, s, here, there⟩ | ⟨here, there⟩
  · rw [here, there, beside, beside]
  · have long := List.length_pos_iff.mpr ne
    rw [here]
    refine iff_of_false (fun ⟨below, ne⟩ => ne (below.eq_of_length_le ?_)) fun ⟨below, _⟩ =>
      ne (List.prefix_nil.mp below)
    omega

end Apportion.Path
