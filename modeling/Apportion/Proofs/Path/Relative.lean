import Apportion.Proofs.Path.Normal

/-!
Ways between places. The way from a directory to a place, joined to the directory again, leads to that
place, also after it has been spelled with slashes (`place_join_slashed`) or as a specifier
(`place_join_specifier`). Absolute paths have the same normal form if they lead to the same place
(`normalize_eq_iff`).
-/
namespace Apportion.Path
open Text

/-! ## Normal forms and places -/

theorem normalize_eq_iff {p q : Path} (hp : p.isAbsolute = true) (hq : q.isAbsolute = true) :
    p.normalize = q.normalize ↔ p.place = q.place := by
  constructor
  · intro h
    rw [← place_normalize hp, h, place_normalize hq]
  · intro h
    refine normalize_eq_of_components ?_
    rw [components_normalize_of_absolute hp, components_normalize_of_absolute hq, h]

/-- A relative path has its steps as components, maybe with a dot in front. -/
theorem components_of_relative {q : Path} (relative : q.isAbsolute = false) :
    q.components = q.steps ∨ q.components = .current :: q.steps := by
  cases start : q.start with
  | none => exact .inl (components_eq_steps start)
  | some c =>
    rw [start_eq] at start
    split at start
    · rename_i root
      rw [isAbsolute, start_eq, if_pos root] at relative
      cases relative
    · split at start <;> cases start
      rename_i dot
      obtain ⟨rest, e⟩ := List.head?_eq_some_iff.mp dot
      refine .inr ?_
      rw [components, body, steps, start_eq, e]
      rfl

theorem place_of_relative_steps {q : Path} (relative : q.isAbsolute = false) :
    q.place = (q.steps.foldl descend []).reverse := by
  rw [place_eq]
  rcases components_of_relative relative with e | e <;> rw [e]
  rfl

/-- Where a relative path leads from a place. -/
theorem place_join {p q : Path} (relative : q.isAbsolute = false) :
    (p.join q).place = (q.steps.foldl descend p.place.reverse).reverse := by
  by_cases empty : p.text = ""
  · have same : p.join q = q := by simp [join, relative, empty]
    rw [same, place_of_relative_steps relative, place_eq, components_of_text_empty empty]
    rfl
  · rw [place_eq, components_join relative (.inl empty), place_eq, List.foldl_append,
      List.reverse_reverse]

/-! ## The way from one place to another -/

/-- What is dropped is the longest common beginning. -/
theorem dropCommon_eq (as bs : List Component) : ∃ common,
    as = common ++ (dropCommon as bs).1 ∧ bs = common ++ (dropCommon as bs).2 ∧
    ∀ cs, cs <+: as → cs <+: bs → cs <+: common := by
  induction as generalizing bs with
  | nil => exact ⟨[], by cases bs <;> exact ⟨rfl, rfl, fun _ h _ => h⟩⟩
  | cons a as ih =>
    cases bs with
    | nil => exact ⟨[], rfl, rfl, fun _ _ h => h⟩
    | cons b bs =>
      by_cases h : a = b
      · obtain ⟨common, ha, hb, longest⟩ := ih bs
        refine ⟨a :: common, ?_, ?_, fun cs => ?_⟩
        · rw [dropCommon, if_pos h, List.cons_append, ← ha]
        · rw [dropCommon, if_pos h, List.cons_append, ← hb, h]
        · cases cs with
          | nil => exact fun _ _ => List.nil_prefix
          | cons c cs =>
            simp only [List.cons_prefix_cons]
            exact fun h h' => ⟨h.1, longest cs h.2 h'.2⟩
      · refine ⟨[], by simp [dropCommon, h], by simp [dropCommon, h], fun cs => ?_⟩
        cases cs with
        | nil => exact fun _ _ => List.nil_prefix
        | cons c cs =>
          simp only [List.cons_prefix_cons]
          exact fun h' h'' => absurd (h'.1.symm.trans h''.1) h

theorem dropCommon_cons (c : Component) (as bs : List Component) :
    dropCommon (c :: as) (c :: bs) = dropCommon as bs := by simp [dropCommon]

/-- Up as often as the directory is below the deepest common place, then down. -/
theorem components_relative {dir target : Path} (hd : dir.isAbsolute = true)
    (ht : target.isAbsolute = true) : ∃ common up down,
    dir.place = common ++ up ∧ target.place = common ++ down ∧
    (∀ names, names <+: dir.place → names <+: target.place → names <+: common) ∧
    (dir.relative target).components = List.replicate up.length .parent ++ down.map .name := by
  obtain ⟨common, hup, hdown, longest⟩ :=
    dropCommon_eq (dir.place.map Component.name) (target.place.map Component.name)
  obtain ⟨first, up, hp, rfl, eu⟩ := List.map_eq_append_iff.mp hup
  obtain ⟨first', down, hp', same, ed⟩ := List.map_eq_append_iff.mp hdown
  obtain rfl := (List.map_inj_right fun s t e => Component.name_injective e).mp same
  have names : ∀ s ∈ down, IsName s := fun s hs => by
    refine Path.isName_of_mem (p := target.normalize) ?_
    rw [components_normalize_of_absolute ht, hp']
    simp [hs]
  have form : NormalForm (List.replicate up.length .parent ++ down.map .name) :=
    ⟨_, down, .inr ⟨up.length, rfl⟩, names, rfl⟩
  refine ⟨_, up, down, hp, hp', fun names h h' => ?_, ?_⟩
  · exact (List.prefix_map_iff_of_injective Component.name_injective).mp (longest _ (h.map _) (h'.map _))
  have e : dir.relative target =
      ofComponents (List.replicate up.length .parent ++ down.map .name) := by
    simp only [relative, components_normalize_of_absolute hd, components_normalize_of_absolute ht,
      dropCommon_cons, ← eu, ← ed, List.map_map]
    congr 2
    exact List.map_const' ..
  rw [e, components_ofComponents form]

theorem start_of_relative {p : Path} {n : Nat} {names : List String}
    (h : p.components = List.replicate n .parent ++ names.map .name) : p.start = none := by
  cases hs : p.start with
  | none => rfl
  | some c =>
    have mem : c ∈ p.components := by simp [components_of_start hs]
    rw [h] at mem
    rw [start_eq] at hs
    split at hs
    · cases hs
      simp at mem
    · split at hs
      · cases hs
        simp at mem
      · cases hs

/-- A path that is neither absolute nor begins with a dot is spelled with its own components. -/
theorem components_slashed {p : Path} (h : p.start = none) :
    (Path.mk p.slashed).start = none ∧ (Path.mk p.slashed).components = p.components := by
  have each : ∀ c ∈ p.components,
      '/' ∉ c.text.toList ∧ Component.ofSegment c.text.toList = some c := by
    intro c hc
    rw [components_eq_steps h] at hc
    rcases mem_steps hc with rfl | ⟨s, rfl, hs⟩
    · exact ⟨by decide, by decide⟩
    · exact ⟨hs.2.2.2, Component.ofSegment_name hs⟩
  have slash : ∀ s ∈ p.components.map fun c => c.text.toList, '/' ∉ s := by
    intro s hs
    obtain ⟨c, hc, rfl⟩ := List.mem_map.mp hs
    exact (each c hc).1
  have spelled := ofParts_none slash fun s hs => by
    obtain ⟨c, hc, rfl⟩ := List.mem_map.mp (List.mem_of_mem_head? hs)
    simp [isIdle, (each c hc).2]
  refine ⟨spelled.1, spelled.2.trans ?_⟩
  rw [List.filterMap_map]
  have id : ∀ cs : List Component, (∀ c ∈ cs, Component.ofSegment c.text.toList = some c) →
      cs.filterMap (Component.ofSegment ∘ fun c => c.text.toList) = cs := by
    intro cs
    induction cs with
    | nil => exact fun _ => rfl
    | cons c cs ih =>
      intro h
      rw [List.filterMap_cons, Function.comp_apply, h c List.mem_cons_self]
      exact congrArg (c :: ·) (ih fun d hd => h d (List.mem_cons_of_mem c hd))
  exact id p.components fun c hc => (each c hc).2

theorem start_relative {dir target : Path} (hd : dir.isAbsolute = true)
    (ht : target.isAbsolute = true) : (dir.relative target).start = none := by
  obtain ⟨common, up, down, -, -, -, components⟩ := components_relative hd ht
  exact start_of_relative components

/-- The way to a place leads there, however it is written. -/
theorem place_join_of_steps {dir target q : Path} (hd : dir.isAbsolute = true)
    (ht : target.isAbsolute = true) (relative : q.isAbsolute = false)
    (same : q.steps = (dir.relative target).components) : (dir.join q).place = target.place := by
  obtain ⟨common, up, down, ed, et, -, components⟩ := components_relative hd ht
  have climb : ∀ (n : Nat) (stack : List String),
      (List.replicate n Component.parent).foldl descend stack = stack.drop n := by
    intro n
    induction n with
    | zero => intro stack; rfl
    | succ n ih =>
      intro stack
      rw [List.replicate_succ, List.foldl_cons, ih, descend, List.drop_tail]
  rw [place_join relative, same, components, List.foldl_append, climb, foldl_descend_names, ed, et]
  simp

/-- The way to a place, spelled with slashes, leads there. -/
theorem place_join_slashed {dir target : Path} (hd : dir.isAbsolute = true)
    (ht : target.isAbsolute = true) :
    (dir.join ⟨(dir.relative target).slashed⟩).place = target.place := by
  obtain ⟨start, same⟩ := components_slashed (start_relative hd ht)
  exact place_join_of_steps hd ht (isAbsolute_eq_false start) ((components_eq_steps start).symm.trans same)

/-! ## Specifiers -/

theorem isAbsolute_of_slash (cs : List Char) :
    (Path.mk (String.ofList ('/' :: cs))).isAbsolute = true := by
  have segments : (Path.mk (String.ofList ('/' :: cs))).segments = [] :: split '/' cs := by
    simp [Path.segments, split]
  obtain ⟨s, rest, e⟩ := List.exists_cons_of_ne_nil (split_ne_nil '/' cs)
  rw [isAbsolute, start, segments, e]
  rfl

theorem isAbsolute_iff_head {p : Path} : p.isAbsolute = true ↔ p.text.toList.head? = some '/' := by
  cases e : p.text.toList with
  | nil =>
    have same : p = ⟨""⟩ := congrArg Path.mk (String.toList_inj.mp e)
    simp [same, isAbsolute, start, segments, split]
  | cons c cs =>
    by_cases slash : c = '/'
    · have same : p = ⟨String.ofList ('/' :: cs)⟩ := by
        rw [← slash, ← e, String.ofList_toList]
      rw [slash, same, isAbsolute_of_slash]
      simp
    · have segments : p.segments.head? ≠ some [] := by
        rw [Path.segments, e]
        cases pieces : split '/' cs with
        | nil => exact absurd pieces (split_ne_nil '/' cs)
        | cons piece rest => simp [split, slash, pieces]
      have none : p.isAbsolute = false := by
        rw [isAbsolute, start_eq, if_neg fun h => segments h.1]
        split <;> rfl
      simp [none, slash]

theorem isExplicit_explicit (s : String) : isExplicit (explicit s) = true := by
  unfold explicit
  split
  · assumption
  · have front : ("./" ++ s).toList = '.' :: '/' :: s.toList := by
      rw [String.toList_append]
      rfl
    simp [isExplicit, front]

theorem isExplicit_specifier (p : Path) : isExplicit p.specifier = true := isExplicit_explicit _

theorem isAbsolute_of_isExplicit {s : String} (h : isExplicit s = true) :
    (Path.mk s).isAbsolute = false := by
  rw [Bool.eq_false_iff]
  intro absolute
  obtain ⟨cs, e⟩ := List.head?_eq_some_iff.mp (isAbsolute_iff_head.mp absolute)
  simp [isExplicit, show s.toList = '/' :: cs from e] at h

theorem steps_explicit (s : String) : (Path.mk (explicit s)).steps = (Path.mk s).steps := by
  unfold explicit
  split
  · rfl
  · have front : (Path.mk ("./" ++ s)).segments = ['.'] :: (Path.mk s).segments := by
      rw [segments, segments, show ("./" ++ s).toList = ['.'] ++ '/' :: s.toList by
        rw [String.toList_append]; rfl, split_append_sep]
      rfl
    rw [steps, front, List.filterMap_cons]
    rfl

/-- A specifier has the steps of the way that it spells. -/
theorem steps_specifier {q : Path} (start : q.start = none) :
    (Path.mk q.specifier).steps = q.components := by
  obtain ⟨start', same⟩ := components_slashed start
  rw [specifier, steps_explicit, ← components_eq_steps start', same]

theorem place_join_specifier {dir target : Path} (hd : dir.isAbsolute = true)
    (ht : target.isAbsolute = true) :
    (dir.join ⟨(dir.relative target).specifier⟩).place = target.place := by
  exact place_join_of_steps hd ht (isAbsolute_of_isExplicit (isExplicit_specifier _))
    (steps_specifier (start_relative hd ht))

theorem start_of_names {p : Path} {names : List String} (e : p.components = names.map .name)
    (some : names ≠ []) : p.start = none := by
  obtain ⟨s, rest, rfl⟩ := List.exists_cons_of_ne_nil some
  exact start_of_components_name e

/-- Names, spelled as a specifier, are the way down from anywhere. -/
theorem place_join_names (p : Path) {q : Path} {names : List String}
    (e : q.components = names.map .name) (some : names ≠ []) :
    (p.join ⟨q.specifier⟩).place = p.place ++ names := by
  rw [place_join (isAbsolute_of_isExplicit (isExplicit_specifier _)),
    steps_specifier (start_of_names e some), e, foldl_descend_names]
  simp

/-! ## Parents -/

theorem isAbsolute_ofParts (body : List (List Char)) :
    (ofParts (some .root) body).isAbsolute = true := by
  cases body with
  | nil => exact isAbsolute_of_slash []
  | cons s rest =>
    rw [ofParts, join_cons (List.cons_ne_nil s rest)]
    · exact isAbsolute_of_slash _
    · exact fun h => List.cons_ne_nil s rest h

theorem isAbsolute_parent {p dir : Path} (h : p.isAbsolute = true) (hd : p.parent = some dir) :
    dir.isAbsolute = true := by
  have start : p.start = some .root := by simpa [isAbsolute] using h
  unfold parent at hd
  split at hd
  · rw [if_neg (by rw [start]; decide)] at hd
    cases hd
  · cases hd
    rw [start]
    exact isAbsolute_ofParts _

theorem exists_parent_of_ne {p : Path} (h : p.components ≠ p.start.toList) :
    ∃ dir, p.parent = some dir := by
  have ne : dropEndWhile isIdle p.body ≠ [] := by
    intro none
    refine h ?_
    rw [components, ← filterMap_dropEndWhile_idle, none, List.filterMap_nil, List.append_nil]
  unfold parent
  split
  · rename_i none
    exact absurd none ne
  · exact ⟨_, rfl⟩

theorem exists_parent_of_length {p : Path} (h : 1 < p.components.length) :
    ∃ dir, p.parent = some dir := by
  refine exists_parent_of_ne fun front => ?_
  rw [front] at h
  cases hs : p.start <;> simp [hs] at h

theorem exists_parent {p : Path} {s : String} (h : p.fileName = some s) :
    ∃ dir, p.parent = some dir := by
  obtain ⟨-, front, e⟩ := of_fileName h
  refine exists_parent_of_ne fun none => ?_
  rw [none] at e
  have last : Component.name s ∈ p.start.toList := by simp [e]
  rw [start_eq] at last
  split at last
  · simp at last
  · split at last <;> simp at last

end Apportion.Path
