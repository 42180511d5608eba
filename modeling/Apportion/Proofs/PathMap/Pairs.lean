import Apportion.Proofs.PathMap

/-!
What a path map is to the pairs it is made of. A list of pairs either makes a map, which answers for
these pairs and for no others (`holds_of_ofPairs`), or has a first pair that cannot stand beside those
in front of it (`firstConflict_of_check`), of which there is only one (`FirstConflict.unique`). Which of
the two it is depends only on whether some source or some destination occurs twice (`ofPairs_total`).
-/
namespace Apportion.PathMap

/-- No source occurs twice, and no destination does. -/
def Distinct (pairs : List (Path × Path)) : Prop :=
  (pairs.map fun e => e.1.components).Nodup ∧ (pairs.map fun e => e.2.components).Nodup

theorem distinct_iff (pairs : List (Path × Path)) : Distinct pairs ↔ pairs.Pairwise Apart := by
  rw [Distinct, List.nodup_iff_pairwise_ne, List.nodup_iff_pairwise_ne, List.pairwise_map,
    List.pairwise_map, ← List.pairwise_and_iff]
  rfl

/-! ## Pairs that make a map -/

/-- The map has these pairs as its entries, in the order of their sources, and answers by them. -/
structure Holds (m : PathMap) (pairs : List (Path × Path)) : Prop where
  listed : m.entries.Perm pairs
  increasing : m.entries.Pairwise fun a b => compare a.1 b.1 = .lt
  size_eq : m.size = pairs.length
  contains_iff (path : Path) :
    m.contains path = true ↔ ∃ e ∈ pairs, e.1.components = path.components
  leads_iff (path target : Path) : m.get? path = some target ↔
    ∃ source, (source, target) ∈ pairs ∧ source.components = path.components
  injective (path path' target target' : Path) : m.get? path = some target →
    m.get? path' = some target' → target.components = target'.components →
      path.components = path'.components

theorem eq_of_target {pairs : List (Path × Path)} (apart : pairs.Pairwise Apart) {a b : Path × Path}
    (ha : a ∈ pairs) (hb : b ∈ pairs) (same : a.2.components = b.2.components) : a = b :=
  List.inj_on_of_nodup_map (f := fun e : Path × Path => e.2.components)
    (List.pairwise_map.mpr (apart.imp And.right)) ha hb same

theorem contains_iff_of_perm {pairs : List (Path × Path)} {m : PathMap} (perm : m.entries.Perm pairs)
    (path : Path) : m.contains path = true ↔ ∃ e ∈ pairs, e.1.components = path.components := by
  rw [contains, List.any_eq_true]
  constructor
  · rintro ⟨e, mem, same⟩
    exact ⟨e, perm.mem_iff.mp mem, Path.beq_iff.mp same⟩
  · rintro ⟨e, mem, same⟩
    exact ⟨e, perm.mem_iff.mpr mem, Path.beq_iff.mpr same⟩

theorem holds_of_ofPairs {pairs : List (Path × Path)} {m : PathMap} (h : ofPairs pairs = .ok m) :
    Holds m pairs := by
  obtain ⟨apart, perm⟩ := of_ofPairs h
  refine ⟨perm, (pairwise_entries h).imp And.right, perm.length_eq, contains_iff_of_perm perm,
    fun _ _ => get?_eq_some_iff h, ?_⟩
  intro path path' target target' led led' same
  obtain ⟨source, mem, here⟩ := (get?_eq_some_iff h).mp led
  obtain ⟨source', mem', here'⟩ := (get?_eq_some_iff h).mp led'
  obtain ⟨rfl, -⟩ := Prod.mk.inj (eq_of_target apart mem mem' same)
  exact here.symm.trans here'

/-! ## Pairs that make none -/

/-- What is wrong with a pair beside those that are taken: its source is one of theirs, or else its
destination is. -/
inductive Clash (taken : List (Path × Path)) : Path × Path → PathConflict → Prop
  | source {source target : Path} (e : Path × Path) : e ∈ taken →
      e.1.components = source.components → Clash taken (source, target) (.duplicateSource source)
  | destination {source target first owned : Path} :
      (∀ e ∈ taken, e.1.components ≠ source.components) → (first, owned) ∈ taken →
        owned.components = target.components →
          Clash taken (source, target) (.duplicateDestination first source target)

/-- The earliest pair that clashes with those in front of it, which by themselves make a map. -/
def FirstConflict (pairs : List (Path × Path)) (conflict : PathConflict) : Prop :=
  ∃ front pair back, pairs = front ++ pair :: back ∧ Distinct front ∧ Clash front pair conflict

theorem Clash.of_perm {taken taken' : List (Path × Path)} {pair : Path × Path}
    {conflict : PathConflict} (h : Clash taken pair conflict) (perm : taken.Perm taken') :
    Clash taken' pair conflict := by
  cases h with
  | source e mem same => exact .source e (perm.mem_iff.mp mem) same
  | destination fresh mem same =>
    exact .destination (fun e he => fresh e (perm.mem_iff.mpr he)) (perm.mem_iff.mp mem) same

/-- The check fails at a pair that clashes with those before it, and not earlier. -/
theorem clash_of_check {earlier pairs : List (Path × Path)} {conflict : PathConflict}
    (h : check earlier pairs = .error conflict) : ∃ front pair back,
      pairs = front ++ pair :: back ∧ check earlier front = .ok () ∧
        Clash (front.reverse ++ earlier) pair conflict := by
  induction pairs generalizing earlier with
  | nil => cases h
  | cons pair rest ih =>
    obtain ⟨source, target⟩ := pair
    rw [check] at h
    split at h
    · rename_i taken
      cases h
      obtain ⟨e, mem, same⟩ := List.any_eq_true.mp taken
      exact ⟨[], _, rest, rfl, rfl, .source e mem (Path.beq_iff.mp same)⟩
    · rename_i free
      have fresh : ∀ e ∈ earlier, e.1.components ≠ source.components := fun e mem same =>
        free (List.any_eq_true.mpr ⟨e, mem, Path.beq_iff.mpr same⟩)
      split at h
      · rename_i first owned found
        cases h
        have same : (owned == target) = true := List.find?_some (a := (first, owned)) found
        exact ⟨[], _, rest, rfl, rfl, .destination fresh (List.mem_of_find?_eq_some found)
          (Path.beq_iff.mp same)⟩
      · rename_i missing
        -- the pair passes, and what fails later fails beside it as well
        obtain ⟨front, pair, back, rfl, passed, clash⟩ := ih h
        refine ⟨(source, target) :: front, pair, back, rfl, ?_, ?_⟩
        · rw [check, if_neg free, missing]
          exact passed
        · rwa [List.reverse_cons, List.append_assoc]

theorem firstConflict_of_check {pairs : List (Path × Path)} {conflict : PathConflict}
    (h : check [] pairs = .error conflict) : FirstConflict pairs conflict := by
  obtain ⟨front, pair, back, whole, passed, clash⟩ := clash_of_check h
  rw [List.append_nil] at clash
  refine ⟨front, pair, back, whole, ?_, clash.of_perm front.reverse_perm⟩
  exact (distinct_iff front).mpr ((check_eq_ok_iff [] front).mp passed).2

/-- A pair that clashes with others makes no map with them. -/
theorem Clash.not_distinct {taken : List (Path × Path)} {pair : Path × Path}
    {conflict : PathConflict} (h : Clash taken pair conflict) (back : List (Path × Path)) :
    ¬ Distinct (taken ++ pair :: back) := by
  intro distinct
  have apart : ∀ e ∈ taken, Apart e pair := fun e mem =>
    (List.pairwise_append.mp ((distinct_iff _).mp distinct)).2.2 e mem pair List.mem_cons_self
  cases h with
  | source e mem same => exact (apart e mem).1 same
  | destination _ mem same => exact (apart _ mem).2 same

theorem Clash.unique {taken : List (Path × Path)} (distinct : Distinct taken) {pair : Path × Path}
    {c c' : PathConflict} (h : Clash taken pair c) (h' : Clash taken pair c') : c = c' := by
  cases h with
  | source e mem same =>
    cases h' with
    | source => rfl
    | destination fresh => exact absurd same (fresh e mem)
  | destination fresh mem same =>
    cases h' with
    | source e mem' same' => exact absurd same' (fresh e mem')
    | destination _ mem' same' =>
      have one := eq_of_target ((distinct_iff taken).mp distinct) mem mem' (same.trans same'.symm)
      rw [(Prod.mk.inj one).1]

/-- No pair behind the first conflict is a first conflict too. -/
theorem FirstConflict.unique {pairs : List (Path × Path)} {c c' : PathConflict}
    (h : FirstConflict pairs c) (h' : FirstConflict pairs c') : c = c' := by
  obtain ⟨front, pair, back, whole, distinct, clash⟩ := h
  obtain ⟨front', pair', back', whole', distinct', clash'⟩ := h'
  rcases List.append_eq_append_iff.mp (whole.symm.trans whole') with
    ⟨more, rfl, rest⟩ | ⟨more, rfl, rest⟩
  · cases more with
    | nil =>
      obtain ⟨rfl, -⟩ := List.cons.inj rest
      rw [List.append_nil] at clash'
      exact clash.unique distinct clash'
    | cons next more =>
      obtain ⟨rfl, -⟩ := List.cons.inj rest
      exact absurd distinct' (clash.not_distinct more)
  · cases more with
    | nil =>
      obtain ⟨rfl, -⟩ := List.cons.inj rest
      rw [List.append_nil] at clash
      exact clash.unique distinct' clash'
    | cons next more =>
      obtain ⟨rfl, -⟩ := List.cons.inj rest
      exact absurd distinct (clash'.not_distinct more)

/-- Pairs make a map that answers for exactly them, if no source and no destination occurs twice; if
one does, the error tells of the earliest pair that repeats a source or else a destination. -/
theorem ofPairs_total (pairs : List (Path × Path)) :
    (Distinct pairs ∧ ∃ m, ofPairs pairs = .ok m ∧ Holds m pairs) ∨
      (¬ Distinct pairs ∧ ∃ conflict, ofPairs pairs = .error conflict ∧
        ∀ c, FirstConflict pairs c ↔ c = conflict) := by
  cases checked : check [] pairs with
  | ok _ =>
    have made : ofPairs pairs = .ok ⟨pairs.mergeSort fun a b => a.1.precedes b.1⟩ := by
      rw [ofPairs, checked]
      rfl
    exact .inl ⟨(distinct_iff pairs).mpr (of_ofPairs made).1, _, made, holds_of_ofPairs made⟩
  | error conflict =>
    have here := firstConflict_of_check checked
    refine .inr ⟨?_, conflict, by rw [ofPairs, checked]; rfl, fun c =>
      ⟨fun there => there.unique here, fun same => same ▸ here⟩⟩
    obtain ⟨front, pair, back, rfl, -, clash⟩ := here
    exact clash.not_distinct back

end Apportion.PathMap
