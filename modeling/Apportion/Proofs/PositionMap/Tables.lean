import Apportion.Proofs.PositionMap.Compose

/-!
Tables that list what is used, each once and in the order of the first uses (`FirstUses`). Such a
table is made by erasing duplicates (`firstUses_eraseDups`). Renaming what is used, different things
differently, renames the table and moves nothing in it (`List.eraseDups_map`, `indexIn_map`).
-/
namespace Apportion

/-! ## Renaming -/

section
variable {α β : Type} [BEq α] [LawfulBEq α] [BEq β] [LawfulBEq β] {f : α → β}

theorem List.eraseDups_map : (l : List α) → (∀ a ∈ l, ∀ b ∈ l, f a = f b → a = b) →
    (l.map f).eraseDups = l.eraseDups.map f
  | [], _ => rfl
  | a :: l, different => by
    -- what is left of the tail is the same before renaming and after it
    have left : (l.map f).filter (fun b => !b == f a) = (l.filter fun b => !b == a).map f := by
      rw [List.filter_map]
      refine congrArg (List.map f) (List.filter_congr fun b hb => ?_)
      have iff : (f b == f a) = (b == a) := by
        rw [Bool.eq_iff_iff, beq_iff_eq, beq_iff_eq]
        exact ⟨different b (List.mem_cons_of_mem a hb) a List.mem_cons_self, congrArg f⟩
      simp [iff]
    have rest := List.eraseDups_map (l.filter fun b => !b == a) fun b hb c hc =>
      different b (List.mem_cons_of_mem a (List.mem_of_mem_filter hb))
        c (List.mem_cons_of_mem a (List.mem_of_mem_filter hc))
    rw [List.map_cons, List.eraseDups_cons, List.eraseDups_cons, left, rest, List.map_cons]
termination_by l => l.length
decreasing_by exact Nat.lt_succ_of_le (List.length_filter_le _ _)

theorem List.idxOf_map {l : List α} {a : α} (different : ∀ b ∈ l, f b = f a → b = a) :
    (l.map f).idxOf (f a) = l.idxOf a := by
  induction l with
  | nil => rfl
  | cons b l ih =>
    have rest := ih fun c hc => different c (List.mem_cons_of_mem b hc)
    have head : (f b == f a) = (b == a) := by
      rw [Bool.eq_iff_iff, beq_iff_eq, beq_iff_eq]
      exact ⟨different b List.mem_cons_self, congrArg f⟩
    rw [List.map_cons, List.idxOf_cons, List.idxOf_cons, rest, head]

end

namespace PositionMap

theorem indexIn_map {α β : Type} [BEq α] [LawfulBEq α] [BEq β] [LawfulBEq β] {f : α → β} {l : List α}
    {a : α} (different : ∀ b ∈ l, f b = f a → b = a) : indexIn (f a) (l.map f) = indexIn a l := by
  rw [indexIn, indexIn, List.idxOf_map different]

/-- In a table that is not too long, different entries have different indexes. -/
theorem indexIn_inj {α : Type} [BEq α] [LawfulBEq α] {a b : α} {l : List α} (ha : a ∈ l)
    (hb : b ∈ l) (short : l.length ≤ 2 ^ 32) (h : indexIn a l = indexIn b l) : a = b := by
  have found := getElem?_indexIn ha short
  rw [h, getElem?_indexIn hb short] at found
  exact (Option.some.inj found).symm

/-! ## First uses -/

/-- A table of what is used: every entry once, in the order of the first uses. -/
structure FirstUses {α : Type} [BEq α] (uses table : List α) : Prop where
  nodup : table.Nodup
  mem : ∀ a, a ∈ table ↔ a ∈ uses
  order : table.Pairwise fun a b => uses.idxOf a < uses.idxOf b

/-- What comes first among some elements of a list comes first in the list. -/
theorem idxOf_lt_of_filter {α : Type} [BEq α] [LawfulBEq α] {l : List α} (keep : α → Bool) {a b : α}
    (ha : keep a = true) (hb : keep b = true)
    (h : (l.filter keep).idxOf a < (l.filter keep).idxOf b) : l.idxOf a < l.idxOf b := by
  induction l with
  | nil => simp at h
  | cons c l ih =>
    by_cases hc : keep c = true
    · rw [List.filter_cons_of_pos hc, List.idxOf_cons, List.idxOf_cons] at h
      rw [List.idxOf_cons, List.idxOf_cons]
      cases second : c == b with
      | true => simp [second] at h
      | false =>
        cases first : c == a with
        | true => simp
        | false =>
          simp only [first, second, cond_false, Nat.add_lt_add_iff_right] at h ⊢
          exact ih h
    · rw [List.filter_cons_of_neg hc] at h
      have ne {d : α} (hd : keep d = true) : (c == d) = false := by
        rw [beq_eq_false_iff_ne]
        rintro rfl
        exact hc hd
      rw [List.idxOf_cons, List.idxOf_cons, ne ha, ne hb]
      simpa using ih h

theorem firstUses_eraseDups {α : Type} [BEq α] [LawfulBEq α] :
    (l : List α) → FirstUses l l.eraseDups
  | [] => ⟨.nil, fun _ => Iff.rfl, .nil⟩
  | a :: l => by
    have rest := firstUses_eraseDups (l.filter fun b => !b == a)
    refine ⟨List.nodup_eraseDups _, fun b => List.mem_eraseDups, ?_⟩
    have keep : ∀ b ∈ (l.filter fun b => !b == a).eraseDups, (!b == a) = true := fun b hb =>
      (List.mem_filter.mp (List.mem_eraseDups.mp hb)).2
    have others : ∀ b ∈ (l.filter fun b => !b == a).eraseDups, (a == b) = false := by
      intro b hb
      rw [BEq.comm]
      simpa using keep b hb
    rw [List.eraseDups_cons, List.pairwise_cons]
    refine ⟨fun b hb => ?_, rest.order.imp_of_mem fun {b c} hb hc earlier => ?_⟩
    · simp [List.idxOf_cons, others b hb]
    · have before := idxOf_lt_of_filter (fun b => !b == a) (keep b hb) (keep c hc) earlier
      simpa [List.idxOf_cons, others b hb, others c hc] using before
termination_by l => l.length
decreasing_by exact Nat.lt_succ_of_le (List.length_filter_le _ _)

end PositionMap
end Apportion
