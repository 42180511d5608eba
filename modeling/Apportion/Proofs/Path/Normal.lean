import Apportion.Path.Relative
import Apportion.Proofs.Path.Components
import Apportion.Workspace.Memory

/-!
Normal forms and places. Resolving dots leaves the root or some `..` in front and names after it
(`normalForm_normalComponents`), such components come back from the path made of them
(`components_ofComponents`), and an absolute path in normal form is told by the place it leads to
(`Settled.components_eq`).
-/
namespace Apportion.Path

/-! ## Normal form -/

/-- The root or some `..` in front, and names after it. -/
def NormalForm (cs : List Component) : Prop :=
  ∃ (front : List Component) (names : List String),
    (front = [.root] ∨ ∃ n, front = List.replicate n .parent) ∧ (∀ s ∈ names, IsName s) ∧
    cs = front ++ names.map .name

theorem NormalForm.snoc {cs : List Component} {s : String} (h : NormalForm cs) (hs : IsName s) :
    NormalForm (cs ++ [.name s]) := by
  obtain ⟨front, names, hf, hn, rfl⟩ := h
  refine ⟨front, names ++ [s], hf, ?_, by simp⟩
  intro t ht
  rcases List.mem_append.mp ht with ht | ht
  · exact hn t ht
  · rw [List.mem_singleton.mp ht]
    exact hs

/-- A step keeps a stack of components in normal form. -/
theorem NormalForm.push {stack : List Component} {c : Component} (h : NormalForm stack.reverse)
    (hc : c = .parent ∨ ∃ s, c = .name s ∧ IsName s) :
    NormalForm (pushComponent stack c).reverse := by
  rcases hc with rfl | ⟨s, rfl, hs⟩
  · obtain ⟨front, names, hf, hn, e⟩ := h
    have e' : stack = (names.map Component.name).reverse ++ front.reverse := by
      rw [← List.reverse_append, ← e, List.reverse_reverse]
    rcases List.eq_nil_or_concat names with rfl | ⟨init, last, rfl⟩
    · rcases hf with rfl | ⟨n, rfl⟩
      · exact ⟨[.root], [], .inl rfl, by simp, by simp [e', pushComponent]⟩
      · refine ⟨List.replicate (n + 1) .parent, [], .inr ⟨n + 1, rfl⟩, by simp, ?_⟩
        cases n with
        | zero => simp [e', pushComponent]
        | succ n => simp [e', pushComponent, List.replicate_succ']
    · refine ⟨front, init, hf, fun s hs => hn s (by simp [hs]), ?_⟩
      simp [e', pushComponent]
  · have : (pushComponent stack (.name s)).reverse = stack.reverse ++ [.name s] := by
      simp [pushComponent]
    rw [this]
    exact h.snoc hs

theorem NormalForm.foldl_push {stack cs : List Component} (h : NormalForm stack.reverse)
    (hc : ∀ c ∈ cs, c = .parent ∨ ∃ s, c = .name s ∧ IsName s) :
    NormalForm (cs.foldl pushComponent stack).reverse := by
  induction cs generalizing stack with
  | nil => exact h
  | cons c cs ih =>
    exact ih (h.push (hc c (by simp))) fun d hd => hc d (by simp [hd])

theorem normalForm_root : NormalForm [.root] := ⟨[.root], [], .inl rfl, by simp, rfl⟩

theorem normalForm_nil : NormalForm [] := ⟨[], [], .inr ⟨0, rfl⟩, by simp, rfl⟩

/-- The components of a path, its dots resolved, are in normal form. -/
theorem normalForm_normalComponents (p : Path) : NormalForm (normalComponents p.components) := by
  obtain ⟨more, e, suffix⟩ := p.components_eq
  have steps : ∀ c ∈ more, c = .parent ∨ ∃ s, c = .name s ∧ IsName s :=
    fun c hc => mem_steps (suffix.subset hc)
  unfold normalComponents
  rw [e, List.foldl_append]
  refine NormalForm.foldl_push ?_ steps
  rw [start_eq]
  split
  · exact normalForm_root
  · split
    · exact normalForm_nil
    · exact normalForm_nil

theorem foldl_push_names (stack : List Component) (names : List String) :
    (names.map Component.name).foldl pushComponent stack =
      (names.map Component.name).reverse ++ stack := by
  induction names generalizing stack with
  | nil => rfl
  | cons s names ih => simp [pushComponent, ih]

theorem foldl_push_parents (n : Nat) :
    (List.replicate n Component.parent).foldl pushComponent [] = List.replicate n .parent := by
  induction n with
  | zero => rfl
  | succ n ih =>
    have push : pushComponent (List.replicate n .parent) .parent =
        .parent :: List.replicate n .parent := by cases n <;> rfl
    rw [List.replicate_succ', List.foldl_append, ih, ← List.replicate_succ', List.replicate_succ]
    exact push

theorem normalComponents_of_normalForm {cs : List Component} (h : NormalForm cs) :
    normalComponents cs = cs := by
  obtain ⟨front, names, hf, -, rfl⟩ := h
  have e : front.foldl pushComponent [] = front.reverse := by
    rcases hf with rfl | ⟨n, rfl⟩
    · rfl
    · rw [foldl_push_parents, List.reverse_replicate]
  simp [normalComponents, foldl_push_names, e]

/-! ## Paths made of components -/

theorem ofComponents_snoc (cs : List Component) (c : Component) :
    ofComponents (cs ++ [c]) = (ofComponents cs).join ⟨c.text⟩ := by
  simp [ofComponents]

theorem components_ofComponents {cs : List Component} (h : NormalForm cs) :
    (ofComponents cs).components = cs := by
  obtain ⟨front, names, hf, hn, rfl⟩ := h
  have base : (ofComponents front).components = front := by
    rcases hf with rfl | ⟨n, rfl⟩
    · rfl
    · induction n with
      | zero => rfl
      | succ n ih =>
        rw [List.replicate_succ', ofComponents_snoc, components_join rfl (.inr rfl), ih]
        rfl
  have : ∀ l : List String, (∀ s ∈ l, IsName s) →
      (ofComponents (front ++ l.reverse.map .name)).components = front ++ l.reverse.map .name := by
    intro l
    induction l with
    | nil => simpa using base
    | cons s l ih =>
      intro hl
      rw [List.reverse_cons, List.map_append, ← List.append_assoc, List.map_singleton,
        ofComponents_snoc, show (Component.name s).text = s from rfl,
        components_join_name _ (hl s (by simp)), ih fun t ht => hl t (by simp [ht])]
  simpa using this names.reverse fun s hs => hn s (List.mem_reverse.mp hs)

theorem components_normalize (p : Path) : p.normalize.components = normalComponents p.components :=
  components_ofComponents (normalForm_normalComponents p)

theorem normalize_eq_of_components {p q : Path} (h : p.normalize.components = q.normalize.components) :
    p.normalize = q.normalize := by
  rw [components_normalize, components_normalize] at h
  rw [normalize, normalize, h]

theorem normalize_normalize (p : Path) : p.normalize.normalize = p.normalize := by
  have := normalComponents_of_normalForm (normalForm_normalComponents p)
  rw [normalize, components_normalize, this, normalize]

/-! ## Places -/

/-- One component on the way to a place; the deepest name comes first. -/
def descend (stack : List String) : Component → List String
  | .name s => s :: stack
  | .parent => stack.tail
  | _ => stack

theorem place_eq (p : Path) : p.place = (p.components.foldl descend []).reverse := rfl

theorem foldl_descend_names (stack names : List String) :
    (names.map Component.name).foldl descend stack = names.reverse ++ stack := by
  induction names generalizing stack with
  | nil => rfl
  | cons s names ih => simp [descend, ih]

theorem place_append_names {p q : Path} {names : List String}
    (h : q.components = p.components ++ names.map .name) : q.place = p.place ++ names := by
  rw [place_eq, place_eq, h, List.foldl_append, foldl_descend_names, List.reverse_append,
    List.reverse_reverse]

theorem place_join_name (p : Path) {s : String} (h : IsName s) :
    (p.join ⟨s⟩).place = p.place ++ [s] := by
  have below : (p.join ⟨s⟩).components = p.components ++ [s].map .name := components_join_name p h
  exact place_append_names below

/-! ## Settled paths -/

theorem isAbsolute_iff {p : Path} :
    p.isAbsolute = true ↔ ∃ more, p.components = .root :: more := by
  obtain ⟨more, e, suffix⟩ := p.components_eq
  rw [e]
  cases hs : p.start with
  | none =>
    have : Component.root ∉ more := by
      intro mem
      rcases mem_steps (suffix.subset mem) with e | ⟨s, e, -⟩ <;> cases e
    cases more <;> simp_all [isAbsolute, Ne.symm]
  | some c => simp [isAbsolute, hs]

/-- An absolute path without dots to be resolved. -/
structure Settled (p : Path) : Prop where
  absolute : p.isAbsolute = true
  normal : (p.normalize == p) = true

instance (p : Path) : Decidable p.Settled :=
  decidable_of_iff (p.isAbsolute = true ∧ (p.normalize == p) = true)
    ⟨fun h => ⟨h.1, h.2⟩, fun h => ⟨h.1, h.2⟩⟩

theorem beq_iff {p q : Path} : (p == q) = true ↔ p.components = q.components :=
  beq_iff_eq (a := p.components)

theorem Settled.exists_names {p : Path} (h : p.Settled) :
    ∃ names : List String, (∀ s ∈ names, IsName s) ∧ p.components = .root :: names.map .name := by
  have start : p.start = some .root := by simpa [isAbsolute] using h.absolute
  have form := normalForm_normalComponents p
  rw [← components_normalize, beq_iff.mp h.normal] at form
  obtain ⟨front, names, hf, hn, e⟩ := form
  have head : p.components.head? = some .root := by simp [components_of_start start]
  refine ⟨names, hn, ?_⟩
  rcases hf with rfl | ⟨n, rfl⟩
  · exact e
  · rw [e] at head
    cases n with
    | zero => cases names <;> simp at head
    | succ n => simp [List.replicate_succ] at head

theorem place_of_names {p : Path} {names : List String}
    (h : p.components = .root :: names.map .name) : p.place = names := by
  rw [place_eq, h, List.foldl_cons, foldl_descend_names]
  simp [descend]

theorem Settled.components_eq {p : Path} (h : p.Settled) :
    p.components = .root :: p.place.map .name := by
  obtain ⟨names, -, e⟩ := h.exists_names
  rw [place_of_names e, e]

theorem Settled.normalForm {p : Path} (h : p.Settled) : NormalForm p.components := by
  obtain ⟨names, hn, e⟩ := h.exists_names
  exact ⟨[.root], names, .inl rfl, hn, e⟩

theorem settled_of_names {p : Path} {names : List String}
    (h : p.components = .root :: names.map .name) : p.Settled := by
  have form : NormalForm p.components := by
    refine ⟨[.root], names, .inl rfl, fun s hs => Path.isName_of_mem (p := p) ?_, h⟩
    rw [h]
    exact List.mem_cons_of_mem _ (List.mem_map_of_mem hs)
  refine ⟨isAbsolute_iff.mpr ⟨_, h⟩, ?_⟩
  rw [beq_iff, components_normalize, normalComponents_of_normalForm form]

/-- Among settled paths, one starts with another exactly if its place lies at or below the other's. -/
theorem Settled.startsWith_iff {p q : Path} (hp : p.Settled) (hq : q.Settled) :
    p.startsWith q = true ↔ q.place <+: p.place := by
  rw [Path.startsWith_iff, hp.components_eq, hq.components_eq, List.cons_prefix_cons]
  simp only [true_and]
  exact List.prefix_map_iff_of_injective Component.name_injective

theorem Settled.beq_iff {p q : Path} (hp : p.Settled) (hq : q.Settled) :
    (p == q) = true ↔ p.place = q.place := by
  rw [Path.beq_iff, hp.components_eq, hq.components_eq]
  simp only [List.cons.injEq, true_and]
  exact List.map_inj_right fun s t e => Component.name_injective e

/-! ## Absolute paths -/

theorem foldl_push_root {cs : List Component} (stack : List String)
    (h : ∀ c ∈ cs, c = .parent ∨ ∃ s, c = .name s ∧ IsName s) :
    cs.foldl pushComponent (stack.map .name ++ [.root]) =
      (cs.foldl descend stack).map .name ++ [.root] := by
  induction cs generalizing stack with
  | nil => rfl
  | cons c cs ih =>
    have rest : ∀ d ∈ cs, d = .parent ∨ ∃ s, d = .name s ∧ IsName s := fun d hd =>
      h d (List.mem_cons_of_mem c hd)
    rcases h c List.mem_cons_self with rfl | ⟨s, rfl, -⟩
    · cases stack with
      | nil => exact ih [] rest
      | cons top stack => exact ih stack rest
    · exact ih (s :: stack) rest

/-- An absolute path, its dots resolved, spells out its place. -/
theorem components_normalize_of_absolute {p : Path} (h : p.isAbsolute = true) :
    p.normalize.components = .root :: p.place.map .name := by
  obtain ⟨more, e, suffix⟩ := p.components_eq
  have start : p.start = some .root := by simpa [isAbsolute] using h
  have push := foldl_push_root [] fun c hc => mem_steps (p := p) (suffix.subset hc)
  rw [start] at e
  have place : p.place = (more.foldl descend []).reverse := by rw [place_eq, e]; rfl
  rw [components_normalize, normalComponents, e, place]
  simp only [List.map_nil, List.nil_append] at push
  simp only [Option.toList_some, List.singleton_append, List.foldl_cons, pushComponent, push]
  simp

theorem settled_normalize {p : Path} (h : p.isAbsolute = true) : p.normalize.Settled :=
  settled_of_names (components_normalize_of_absolute h)

theorem place_normalize {p : Path} (h : p.isAbsolute = true) : p.normalize.place = p.place :=
  place_of_names (components_normalize_of_absolute h)

/-- Dots resolved, one absolute path starts with another exactly if it leads to the same place or
below it. -/
theorem startsWith_normalize_iff {p q : Path} (hp : p.isAbsolute = true) (hq : q.isAbsolute = true) :
    p.normalize.startsWith q.normalize = true ↔ q.place <+: p.place := by
  rw [(settled_normalize hp).startsWith_iff (settled_normalize hq), place_normalize hp,
    place_normalize hq]

/-- Normalizing a settled path does not change which normalized paths it starts with. -/
theorem Settled.startsWith_normalize {p q : Path} (h : p.Settled) (hq : q.isAbsolute = true) :
    p.normalize.startsWith q.normalize = p.startsWith q.normalize := by
  rw [Bool.eq_iff_iff, startsWith_normalize_iff h.absolute hq, h.startsWith_iff (settled_normalize hq),
    place_normalize hq]

theorem not_startsWith_normalize_iff {p q : Path} (hp : p.isAbsolute = true)
    (hq : q.isAbsolute = true) :
    p.normalize.startsWith q.normalize = false ↔ ¬ q.place <+: p.place := by
  rw [← startsWith_normalize_iff hp hq, Bool.not_eq_true]

theorem beq_normalize_iff {p q : Path} (hp : p.isAbsolute = true) (hq : q.isAbsolute = true) :
    (p.normalize == q.normalize) = true ↔ p.place = q.place := by
  rw [(settled_normalize hp).beq_iff (settled_normalize hq), place_normalize hp, place_normalize hq]

/-- Dots resolved, neither of two paths is or holds the other. -/
def Aside (p q : Path) : Prop :=
  p.normalize.startsWith q.normalize = false ∧ q.normalize.startsWith p.normalize = false

theorem Aside.symm {p q : Path} (h : p.Aside q) : q.Aside p := ⟨h.2, h.1⟩

theorem aside_iff {p q : Path} (hp : p.isAbsolute = true) (hq : q.isAbsolute = true) :
    p.Aside q ↔ ¬ q.place <+: p.place ∧ ¬ p.place <+: q.place := by
  rw [Aside, not_startsWith_normalize_iff hp hq, not_startsWith_normalize_iff hq hp]

theorem text_ne_empty_of_absolute {p : Path} (h : p.isAbsolute = true) : p.text ≠ "" := by
  obtain ⟨more, e⟩ := isAbsolute_iff.mp h
  intro empty
  simp [components_of_text_empty empty] at e

theorem isAbsolute_join {p : Path} (h : p.isAbsolute = true) (q : Path) :
    (p.join q).isAbsolute = true := by
  by_cases hq : q.isAbsolute = true
  · rwa [join, if_pos hq]
  · obtain ⟨more, e⟩ := isAbsolute_iff.mp h
    rw [isAbsolute_iff, components_join (Bool.eq_false_iff.mpr hq)
      (.inl (text_ne_empty_of_absolute h)), e]
    exact ⟨_, rfl⟩

theorem place_join_dot {p : Path} (h : p.isAbsolute = true) : (p.join ⟨"."⟩).place = p.place := by
  rw [place_eq, components_join rfl (.inl (text_ne_empty_of_absolute h)), place_eq]
  exact congrArg (fun cs => (List.foldl descend [] cs).reverse) (List.append_nil p.components)

theorem place_join_dots (p : Path) : (p.join ⟨".."⟩).place = p.place.dropLast := by
  rw [place_eq, components_join rfl (.inr rfl), place_eq, List.foldl_append]
  simp [steps, segments, Text.split, Component.ofSegment, descend, List.dropLast_reverse]

end Apportion.Path
