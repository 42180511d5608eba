import Apportion.PathMap
import Apportion.Proofs.Path.Normal
import Apportion.Proofs.Path.Order
import Mathlib.Data.List.Nodup

/-!
Path maps. Pairs make a map exactly if no two of them have the same first or the same second path
(`check_eq_ok_iff`); the map holds these pairs and no others, in path order (`pairwise_entries`), so
that its own entries make a map again (`ofPairs_entries`), and leads a path where its pair says
(`get?_eq_some_iff`).
-/
namespace Apportion

/-! ## Lists and results -/

theorem List.nodup_eraseDups {α : Type} [BEq α] [LawfulBEq α] : (l : List α) → l.eraseDups.Nodup
  | [] => .nil
  | a :: l => by
    rw [List.eraseDups_cons, List.nodup_cons]
    refine ⟨?_, List.nodup_eraseDups (l.filter fun b => !b == a)⟩
    simp [List.mem_eraseDups]
termination_by l => l.length
decreasing_by exact Nat.lt_succ_of_le (List.length_filter_le _ _)

theorem Except.bind_eq_ok {ε α β : Type} {x : Except ε α} {f : α → Except ε β} {b : β} :
    (x >>= f) = .ok b ↔ ∃ a, x = .ok a ∧ f a = .ok b := by
  cases x <;> simp [bind, Except.bind]

theorem Except.bind_eq_error {ε α β : Type} {x : Except ε α} {f : α → Except ε β} {e : ε} :
    (x >>= f) = .error e ↔ x = .error e ∨ ∃ a, x = .ok a ∧ f a = .error e := by
  cases x <;> simp [bind, Except.bind]

theorem Except.map_eq_ok {ε α β : Type} {x : Except ε α} {f : α → β} {b : β} :
    x.map f = .ok b ↔ ∃ a, x = .ok a ∧ f a = b := by
  cases x <;> simp [Except.map]

theorem Except.mapError_eq_ok {ε ε' α : Type} {x : Except ε α} {f : ε → ε'} {a : α} :
    x.mapError f = .ok a ↔ x = .ok a := by
  cases x <;> simp [Except.mapError]

theorem Except.eq_ok_of_toOption {ε α : Type} {x : Except ε α} {a : α}
    (h : x.toOption = some a) : x = .ok a := by
  cases x with
  | error e => cases h
  | ok b => exact congrArg Except.ok (Option.some.inj h)

theorem Except.eq_ok_of_isSome {ε α : Type} {x : Except ε α} (h : x.toOption.isSome = true)
    (fallback : α) : x = .ok (x.toOption.getD fallback) := by
  cases x with
  | error e => cases h
  | ok a => rfl

theorem Except.exists_of_mem_mapM {ε α β : Type} {f : α → Except ε β} {as : List α} {bs : List β}
    (h : as.mapM f = .ok bs) : ∀ b ∈ bs, ∃ a ∈ as, f a = .ok b := by
  induction as generalizing bs with
  | nil =>
    cases h
    simp
  | cons a as ih =>
    rw [List.mapM_cons] at h
    obtain ⟨b, hb, h⟩ := Except.bind_eq_ok.mp h
    obtain ⟨rest, hrest, h⟩ := Except.bind_eq_ok.mp h
    cases h
    intro c hc
    rcases List.mem_cons.mp hc with rfl | hc
    · exact ⟨a, by simp, hb⟩
    · obtain ⟨x, hx, e⟩ := ih hrest c hc
      exact ⟨x, List.mem_cons_of_mem _ hx, e⟩

/-- A list of results fails with the first of them that does. -/
theorem Except.mapM_eq_error_iff {ε α β : Type} {f : α → Except ε β} {as : List α} {e : ε} :
    as.mapM f = .error e ↔ ∃ front a back done,
      as = front ++ a :: back ∧ front.mapM f = .ok done ∧ f a = .error e := by
  induction as with
  | nil => simp [pure, Except.pure]
  | cons a as ih =>
    rw [List.mapM_cons, Except.bind_eq_error]
    constructor
    · rintro (here | ⟨b, hb, h⟩)
      · exact ⟨[], a, as, [], rfl, rfl, here⟩
      · rcases Except.bind_eq_error.mp h with later | ⟨bs, -, h⟩
        · obtain ⟨front, a', back, done, rfl, before, there⟩ := ih.mp later
          refine ⟨a :: front, a', back, b :: done, rfl, ?_, there⟩
          rw [List.mapM_cons, hb, before]
          rfl
        · cases h
    · rintro ⟨front, a', back, done, whole, before, there⟩
      cases front with
      | nil =>
        obtain ⟨rfl, -⟩ := List.cons.inj whole
        exact .inl there
      | cons x front =>
        obtain ⟨rfl, rfl⟩ := List.cons.inj whole
        rw [List.mapM_cons] at before
        obtain ⟨b, hb, before⟩ := Except.bind_eq_ok.mp before
        obtain ⟨bs, hbs, -⟩ := Except.bind_eq_ok.mp before
        exact .inr ⟨b, hb, Except.bind_eq_error.mpr (.inl (ih.mpr ⟨front, a', back, bs, rfl, hbs, there⟩))⟩

theorem Except.exists_of_mapM_error {ε α β : Type} {f : α → Except ε β} {as : List α} {e : ε}
    (h : as.mapM f = .error e) : ∃ a ∈ as, f a = .error e := by
  obtain ⟨front, a, back, -, rfl, -, there⟩ := Except.mapM_eq_error_iff.mp h
  exact ⟨a, by simp, there⟩

/-- Results that are all there are those of each element. -/
theorem Except.eq_map_of_mapM {ε α β : Type} {f : α → Except ε β} {as : List α} {bs : List β}
    (h : as.mapM f = .ok bs) (fallback : β) : bs = as.map fun a => (f a).toOption.getD fallback := by
  induction as generalizing bs with
  | nil =>
    cases h
    rfl
  | cons a as ih =>
    rw [List.mapM_cons] at h
    obtain ⟨b, hb, h⟩ := Except.bind_eq_ok.mp h
    obtain ⟨rest, hrest, h⟩ := Except.bind_eq_ok.mp h
    cases h
    rw [List.map_cons, hb, ← ih hrest]
    rfl

theorem Except.getElem?_of_mapM {ε α β : Type} {f : α → Except ε β} {as : List α} {bs : List β}
    (h : as.mapM f = .ok bs) {i : Nat} {a : α} (at' : as[i]? = some a) :
    ∃ b, bs[i]? = some b ∧ f a = .ok b := by
  induction as generalizing bs i with
  | nil => simp at at'
  | cons a' as ih =>
    rw [List.mapM_cons] at h
    obtain ⟨b, hb, h⟩ := Except.bind_eq_ok.mp h
    obtain ⟨rest, hrest, h⟩ := Except.bind_eq_ok.mp h
    cases h
    cases i with
    | zero =>
      cases at'
      exact ⟨b, rfl, hb⟩
    | succ i => exact ih hrest at'

/-- If each result is there under a condition and told by a function, so are all. -/
theorem Except.mapM_eq_ok_iff {ε α β : Type} {f : α → Except ε β} {P : α → Prop} {g : α → β}
    {as : List α} {bs : List β} (each : ∀ a ∈ as, ∀ b, f a = .ok b ↔ P a ∧ b = g a) :
    as.mapM f = .ok bs ↔ (∀ a ∈ as, P a) ∧ bs = as.map g := by
  induction as generalizing bs with
  | nil => simp [pure, Except.pure, eq_comm]
  | cons a as ih =>
    have first := each a List.mem_cons_self
    have rest (bs : List β) : as.mapM f = .ok bs ↔ (∀ a ∈ as, P a) ∧ bs = as.map g :=
      ih fun a ha => each a (List.mem_cons_of_mem _ ha)
    rw [List.mapM_cons, Except.bind_eq_ok, List.forall_mem_cons, List.map_cons]
    constructor
    · rintro ⟨b, hb, h⟩
      obtain ⟨later, hlater, h⟩ := Except.bind_eq_ok.mp h
      cases h
      obtain ⟨here, rfl⟩ := (first b).mp hb
      obtain ⟨there, rfl⟩ := (rest later).mp hlater
      exact ⟨⟨here, there⟩, rfl⟩
    · rintro ⟨⟨here, there⟩, rfl⟩
      refine ⟨g a, (first _).mpr ⟨here, rfl⟩, ?_⟩
      exact Except.bind_eq_ok.mpr ⟨as.map g, (rest _).mpr ⟨there, rfl⟩, rfl⟩

/-- A list mapped to what is there for the elements of a filter, element by element. -/
theorem forall₂_filterMap {α β : Type} {f : α → Option β} {keep : α → Bool} {R : α → β → Prop}
    {l : List α} (there : ∀ a ∈ l, f a ≠ none ↔ keep a = true)
    (each : ∀ a ∈ l, ∀ b, f a = some b → R a b) :
    List.Forall₂ R (l.filter keep) (l.filterMap f) := by
  induction l with
  | nil => exact .nil
  | cons a l ih =>
    have rest := ih (fun b hb => there b (List.mem_cons_of_mem a hb))
      fun b hb => each b (List.mem_cons_of_mem a hb)
    have here := there a List.mem_cons_self
    cases hf : f a with
    | none =>
      have dropped : keep a = false := by simpa [hf] using here
      simpa [hf, dropped] using rest
    | some b =>
      have kept : keep a = true := by simpa [hf] using here
      simpa [hf, kept] using ⟨each a List.mem_cons_self b hf, rest⟩

namespace PathMap

/-- Two pairs that can stand in one map. -/
def Apart (a b : Path × Path) : Prop :=
  a.1.components ≠ b.1.components ∧ a.2.components ≠ b.2.components

theorem Apart.symm {a b : Path × Path} (h : Apart a b) : Apart b a := ⟨h.1.symm, h.2.symm⟩

theorem check_eq_ok_iff (earlier pairs : List (Path × Path)) :
    check earlier pairs = .ok () ↔
      (∀ e ∈ earlier, ∀ a ∈ pairs, Apart e a) ∧ pairs.Pairwise Apart := by
  induction pairs generalizing earlier with
  | nil => simp [check]
  | cons a rest ih =>
    obtain ⟨source, target⟩ := a
    have fresh : ∀ e : Path × Path, Apart e (source, target) ↔
        (e.1 == source) = false ∧ (e.2 == target) = false := by
      simp [Apart, ← Bool.not_eq_true, Path.beq_iff]
    simp only [check]
    split
    · rename_i taken
      obtain ⟨e, he, same⟩ := List.any_eq_true.mp taken
      simp only [reduceCtorEq, false_iff, not_and]
      intro all
      have := ((fresh e).mp (all e he _ List.mem_cons_self)).1
      simp [same] at this
    · rename_i free
      split
      · rename_i e found
        have same := List.find?_some found
        simp only [reduceCtorEq, false_iff, not_and]
        intro all
        have := ((fresh _).mp (all _ (List.mem_of_find?_eq_some found) _ List.mem_cons_self)).2
        simp [same] at this
      · rename_i missing
        have new : ∀ e ∈ earlier, Apart e (source, target) := by
          intro e he
          rw [fresh]
          refine ⟨?_, by simpa using List.find?_eq_none.mp missing e he⟩
          simpa using fun same => free (List.any_eq_true.mpr ⟨e, he, same⟩)
        rw [ih, List.pairwise_cons]
        constructor
        · rintro ⟨all, rest⟩
          refine ⟨fun e he b hb => ?_, fun b hb => all _ List.mem_cons_self b hb, rest⟩
          rcases List.mem_cons.mp hb with rfl | hb
          · exact new e he
          · exact all e (List.mem_cons_of_mem _ he) b hb
        · rintro ⟨all, first, rest⟩
          refine ⟨fun e he b hb => ?_, rest⟩
          rcases List.mem_cons.mp he with rfl | he
          · exact first b hb
          · exact all e he b (List.mem_cons_of_mem _ hb)

theorem of_ofPairs {pairs : List (Path × Path)} {m : PathMap} (h : ofPairs pairs = .ok m) :
    pairs.Pairwise Apart ∧ m.entries.Perm pairs := by
  obtain ⟨_, ok, rfl⟩ := Except.map_eq_ok.mp h
  exact ⟨((check_eq_ok_iff [] pairs).mp ok).2, List.mergeSort_perm _ _⟩

/-- The entries of a map can stand in it, and are in the order of their first paths. -/
theorem pairwise_entries {pairs : List (Path × Path)} {m : PathMap} (h : ofPairs pairs = .ok m) :
    m.entries.Pairwise fun a b => Apart a b ∧ compare a.1 b.1 = .lt := by
  obtain ⟨apart, perm⟩ := of_ofPairs h
  obtain ⟨_, -, rfl⟩ := Except.map_eq_ok.mp h
  have sorted := @List.pairwise_mergeSort _ (fun a b : Path × Path => a.1.precedes b.1)
    (fun a b c => Path.precedes_trans) (fun a b => Path.precedes_total a.1 b.1) pairs
  have apart' := (perm.pairwise_iff fun h => Apart.symm h).mpr apart
  exact sorted.imp₂ (fun a b before apart => ⟨apart, Path.compare_eq_lt before apart.1⟩) apart'

theorem eq_of_source {pairs : List (Path × Path)} (apart : pairs.Pairwise Apart) {a b : Path × Path}
    (ha : a ∈ pairs) (hb : b ∈ pairs) (same : a.1.components = b.1.components) : a = b :=
  List.inj_on_of_nodup_map (f := fun e : Path × Path => e.1.components)
    (List.pairwise_map.mpr (apart.imp And.left)) ha hb same

theorem get?_eq_some_iff {pairs : List (Path × Path)} {m : PathMap} (h : ofPairs pairs = .ok m)
    {path target : Path} : m.get? path = some target ↔
      ∃ source, (source, target) ∈ pairs ∧ source.components = path.components := by
  obtain ⟨apart, perm⟩ := of_ofPairs h
  constructor
  · intro led
    obtain ⟨e, found, rfl⟩ := Option.map_eq_some_iff.mp led
    have same := List.find?_some found
    exact ⟨e.1, perm.mem_iff.mp (List.mem_of_find?_eq_some found), Path.beq_iff.mp same⟩
  · rintro ⟨source, mem, same⟩
    have there : (m.entries.find? fun e => e.1 == path).isSome = true :=
      List.find?_isSome.mpr ⟨_, perm.mem_iff.mpr mem, Path.beq_iff.mpr same⟩
    obtain ⟨e, found⟩ := Option.isSome_iff_exists.mp there
    have fits := List.find?_some found
    have one := eq_of_source apart (perm.mem_iff.mp (List.mem_of_find?_eq_some found)) mem
      ((Path.beq_iff.mp fits).trans same.symm)
    rw [get?, found, one]
    rfl

/-- Pairs that are in order make the map that lists them. -/
theorem ofPairs_of_ordered {pairs : List (Path × Path)}
    (passes : (check [] pairs).toOption.isSome = true)
    (ordered : pairs.Pairwise fun a b => a.1.precedes b.1 = true) : ofPairs pairs = .ok ⟨pairs⟩ := by
  rw [ofPairs, Except.eq_ok_of_isSome passes (), List.mergeSort_of_pairwise ordered]
  rfl

theorem exists_ofPairs {pairs : List (Path × Path)} (apart : pairs.Pairwise Apart) :
    ∃ m, ofPairs pairs = .ok m := by
  unfold ofPairs
  rw [(check_eq_ok_iff [] pairs).mpr ⟨by simp, apart⟩]
  exact ⟨_, rfl⟩

theorem ofPairs_entries {pairs : List (Path × Path)} {m : PathMap} (h : ofPairs pairs = .ok m) :
    ∃ m', ofPairs m.entries = .ok m' :=
  exists_ofPairs ((pairwise_entries h).imp And.left)

end PathMap
end Apportion
