import Apportion.Proofs.Path.Relative
import Apportion.Resolve

/-!
Lexical path arithmetic. Dots are resolved one step after the other, so that a beginning can be resolved
first (`normalize_join_normalize`), and every step goes where it would have gone without
(`foldl_descend_push`): a path and its normal form lead to the same place from anywhere
(`place_join_normalize`). With the ways between places this is all that the arithmetic promises
(`arithmetic_exact`).
-/
namespace Apportion.Path

/-! ## Resolving step by step -/

theorem foldl_push_components {q : Path} (relative : q.isAbsolute = false) (stack : List Component) :
    q.components.foldl pushComponent stack = q.steps.foldl pushComponent stack := by
  rcases components_of_relative relative with e | e <;> rw [e]
  rfl

/-- The steps of a relative path are resolved on top of the path before it, its own dots resolved. -/
theorem components_normalize_join (p : Path) {q : Path} (relative : q.isAbsolute = false) :
    (p.join q).normalize.components =
      (q.steps.foldl pushComponent p.normalize.components.reverse).reverse := by
  rw [components_normalize, components_normalize, normalComponents, normalComponents,
    List.reverse_reverse]
  by_cases empty : p.text = ""
  · have same : p.join q = q := by simp [join, relative, empty]
    rw [same, components_of_text_empty empty, foldl_push_components relative]
    rfl
  · rw [components_join relative (.inl empty), List.foldl_append]

theorem normalize_join_normalize (p q : Path) :
    (p.join q).normalize = (p.normalize.join q).normalize := by
  by_cases absolute : q.isAbsolute = true
  · rw [join, join, if_pos absolute, if_pos absolute]
  · have relative := Bool.eq_false_iff.mpr absolute
    refine normalize_eq_of_components ?_
    rw [components_normalize_join p relative, components_normalize_join p.normalize relative,
      normalize_normalize]

/-! ## Relative paths -/

theorem root_mem_push {stack : List Component} {c : Component}
    (h : .root ∈ pushComponent stack c) : .root ∈ stack ∨ .root = c := by
  unfold pushComponent at h
  split at h
  · exact .inl h
  · split at h
    · exact .inl (List.mem_cons_of_mem _ h)
    · exact .inl h
    · exact (List.mem_cons.mp h).symm
  · exact (List.mem_cons.mp h).symm

theorem root_mem_foldl_push {stack cs : List Component} (h : .root ∈ cs.foldl pushComponent stack) :
    .root ∈ stack ∨ .root ∈ cs := by
  induction cs generalizing stack with
  | nil => exact .inl h
  | cons c cs ih =>
    rw [List.mem_cons, ← or_assoc]
    exact (ih h).imp_left root_mem_push

theorem root_not_mem_steps (p : Path) : .root ∉ p.steps := by
  intro h
  rcases mem_steps h with e | ⟨s, e, -⟩ <;> cases e

/-- A relative path, its dots resolved, climbs first and then goes down. -/
theorem exists_climb_of_relative {p : Path} (relative : p.isAbsolute = false) :
    ∃ (n : Nat) (names : List String), (∀ s ∈ names, IsName s) ∧
      p.normalize.components = List.replicate n .parent ++ names.map .name := by
  obtain ⟨front, names, root | ⟨n, climb⟩, hn, e⟩ := normalForm_normalComponents p
  · have mem : .root ∈ normalComponents p.components := by simp [e, root]
    rw [normalComponents, List.mem_reverse, foldl_push_components relative] at mem
    rcases root_mem_foldl_push mem with h | h
    · cases h
    · exact absurd h p.root_not_mem_steps
  · exact ⟨n, names, hn, by rw [components_normalize, e, climb]⟩

/-- A component that is resolved leads where it would have led. -/
theorem foldl_descend_push {stack : List Component} (rootless : .root ∉ stack) (c : Component)
    (base : List String) : (pushComponent stack c).reverse.foldl descend base =
      descend (stack.reverse.foldl descend base) c := by
  cases c with
  | root => simp [pushComponent]
  | current => rfl
  | name s => simp [pushComponent]
  | parent =>
    cases stack with
    | nil => rfl
    | cons top rest =>
      cases top with
      | root => exact absurd List.mem_cons_self rootless
      | name s => simp [pushComponent, descend]
      | current | parent => simp [pushComponent]

theorem foldl_descend_foldl_push {stack cs : List Component} (rootless : .root ∉ stack)
    (relative : .root ∉ cs) (base : List String) :
    (cs.foldl pushComponent stack).reverse.foldl descend base =
      cs.foldl descend (stack.reverse.foldl descend base) := by
  induction cs generalizing stack with
  | nil => rfl
  | cons c cs ih =>
    obtain ⟨here, rest⟩ := not_or.mp (mt List.mem_cons.mpr relative)
    have next : .root ∉ pushComponent stack c := fun h => (root_mem_push h).elim rootless here
    rw [List.foldl_cons, List.foldl_cons, ih next rest, foldl_descend_push rootless]

/-- A path and its normal form lead to the same place from anywhere. -/
theorem place_join_normalize (dir p : Path) : (dir.join p.normalize).place = (dir.join p).place := by
  by_cases absolute : p.isAbsolute = true
  · rw [join, join, if_pos absolute, if_pos (settled_normalize absolute).absolute,
      place_normalize absolute]
  · have relative := Bool.eq_false_iff.mpr absolute
    obtain ⟨n, names, -, e⟩ := exists_climb_of_relative relative
    have start := start_of_relative e
    rw [place_join (isAbsolute_eq_false start), place_join relative, ← components_eq_steps start,
      components_normalize, normalComponents, foldl_push_components relative,
      foldl_descend_foldl_push List.not_mem_nil p.root_not_mem_steps]
    rfl

/-! ## Ways and their spelling -/

/-- The way from a directory to a place: up to the deepest directory that both have above them, and down
from there. -/
def IsWay (source target way : Path) : Prop :=
  ∃ common up down, source.normalize.components = common ++ up ∧
    target.normalize.components = common ++ down ∧
    (∀ cs, cs <+: source.normalize.components → cs <+: target.normalize.components →
      cs <+: common) ∧
    way.components = List.replicate up.length .parent ++ down

theorem isWay_relative {source target : Path} (hs : source.isAbsolute = true)
    (ht : target.isAbsolute = true) : IsWay source target (source.relative target) := by
  obtain ⟨common, up, down, es, et, longest, components⟩ := components_relative hs ht
  rw [IsWay, components_normalize_of_absolute hs, components_normalize_of_absolute ht]
  refine ⟨.root :: common.map .name, up.map .name, down.map .name, by simp [es], by simp [et], ?_,
    by rw [List.length_map, components]⟩
  intro cs hs ht
  cases cs with
  | nil => exact List.nil_prefix
  | cons c cs =>
    rw [List.cons_prefix_cons] at hs ht ⊢
    -- what is common to both are names, since it stands among names
    obtain ⟨names, rfl⟩ : ∃ names : List String, cs = names.map .name :=
      ⟨_, (List.prefix_iff_eq_take.mp hs.2).trans List.map_take.symm⟩
    rw [List.prefix_map_iff_of_injective Component.name_injective] at hs ht ⊢
    exact ⟨hs.1, longest names hs.2 ht.2⟩

/-- A text that says that it is relative has no scheme. -/
theorem isExternalUrl_of_isExplicit {s : String} (h : isExplicit s = true) :
    isExternalUrl s = false := by
  obtain ⟨rest, e⟩ : ∃ rest, s.toList = '.' :: rest := by
    unfold isExplicit at h
    split at h
    · exact ⟨_, ‹_›⟩
    · exact ⟨_, ‹_›⟩
    · exact ⟨_, ‹_›⟩
    · exact ⟨_, ‹_›⟩
    · cases h
  simp [isExternalUrl, e]

/-- Path arithmetic is exact. -/
theorem arithmetic_exact :
    (∀ p : Path, p.normalize.normalize = p.normalize) ∧
    (∀ p q : Path, (p.join q).normalize = (p.normalize.join q).normalize) ∧
    (∀ p : Path, p.isAbsolute = true → (∀ s ∈ p.place, IsName s) ∧
      p.normalize.components = .root :: p.place.map .name) ∧
    (∀ p : Path, p.isAbsolute = false →
      (∃ (n : Nat) (names : List String), (∀ s ∈ names, IsName s) ∧
        p.normalize.components = List.replicate n .parent ++ names.map .name) ∧
      ∀ dir : Path, (dir.join p.normalize).place = (dir.join p).place) ∧
    (∀ source target : Path, source.isAbsolute = true → target.isAbsolute = true →
      IsWay source target (source.relative target) ∧
      (source.join (source.relative target)).normalize = target.normalize ∧
      (source.join ⟨(source.relative target).slashed⟩).normalize = target.normalize ∧
      (source.join ⟨(source.relative target).specifier⟩).normalize = target.normalize) ∧
    (∀ p : Path, Resolver.isRelative p.specifier = true ∧ isExternalUrl p.specifier = false) := by
  refine ⟨normalize_normalize, normalize_join_normalize, fun p absolute => ?_, fun p relative => ?_,
    fun source target hs ht => ?_, fun p => ?_⟩
  · have components := components_normalize_of_absolute absolute
    refine ⟨fun s hs => isName_of_mem (p := p.normalize) ?_, components⟩
    rw [components]
    exact List.mem_cons_of_mem _ (List.mem_map_of_mem hs)
  · exact ⟨exists_climb_of_relative relative, fun dir => place_join_normalize dir p⟩
  · have leads {q : Path} (h : (source.join q).place = target.place) :
        (source.join q).normalize = target.normalize :=
      (normalize_eq_iff (isAbsolute_join hs q) ht).mpr h
    have start := start_relative hs ht
    exact ⟨isWay_relative hs ht,
      leads (place_join_of_steps hs ht (isAbsolute_eq_false start) (components_eq_steps start).symm),
      leads (place_join_slashed hs ht), leads (place_join_specifier hs ht)⟩
  · have explicit := isExplicit_specifier p
    exact ⟨by rw [Resolver.isRelative, explicit, Bool.true_or], isExternalUrl_of_isExplicit explicit⟩

/-- A way up from a directory that is written with dots, and a path that climbs out of where it is. -/
theorem arithmetic_exact_up_down :
    let source : Path := ⟨"/a/../b/.x"⟩
    let target : Path := ⟨"/b//c.d.ts"⟩
    let p : Path := ⟨"./a/../../b"⟩
    source.isAbsolute = true ∧ target.isAbsolute = true ∧ p.isAbsolute = false ∧
      (source.relative target).specifier = "../c.d.ts" ∧ p.normalize.text = "../b" ∧
      (source.join ⟨"../c.d.ts"⟩).normalize = target.normalize ∧
      (source.join p.normalize).place = (source.join p).place := by
  intro source target p
  have absolute : source.isAbsolute = true ∧ target.isAbsolute = true := by decide +kernel
  have relative : p.isAbsolute = false := by decide +kernel
  have spelled : (source.relative target).specifier = "../c.d.ts" := by decide +kernel
  obtain ⟨-, -, -, climb, ways, -⟩ := arithmetic_exact
  obtain ⟨-, -, -, back⟩ := ways source target absolute.1 absolute.2
  rw [spelled] at back
  exact ⟨absolute.1, absolute.2, relative, spelled, by decide +kernel, back,
    (climb p relative).2 source⟩

end Apportion.Path
