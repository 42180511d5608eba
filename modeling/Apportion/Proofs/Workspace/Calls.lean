import Apportion.Proofs.FileTree
import Apportion.Workspace.Memory

/-!
What one call does to a workspace held in memory. Rules are never added nor taken away
(`map_call_consult`); a call that reads leaves all but their counts alone, and a call that changes
the tree puts another tree in place or fails without a trace in it (`update_cases`).
-/
namespace Apportion

/-! ## Rules -/

namespace FailureRule

theorem map_call_consult (call : Call) (place : Key) (rules : List FailureRule) :
    (consult call place rules).2.map (·.call) = rules.map (·.call) := by
  induction rules with
  | nil => rfl
  | cons r rules ih =>
    unfold consult
    split
    · split
      · rfl
      · simpa using ih
    · simpa using ih

theorem filter_consult {call other : Call} (ne : other ≠ call) (place : Key)
    (rules : List FailureRule) : (consult call place rules).2.filter (·.call == other) =
      rules.filter (·.call == other) := by
  induction rules with
  | nil => rfl
  | cons r rules ih =>
    unfold consult
    split
    · rename_i hit
      simp only [hits, Bool.and_eq_true, beq_iff_eq] at hit
      have own : (r.call == other) = false := by simp [hit.1, Ne.symm ne]
      split
      · rfl
      · simpa [List.filter_cons, own] using ih
    · simp only [List.filter_cons, ih]

theorem exists_of_consult {call : Call} {place : Key} {rules : List FailureRule}
    {kind : FailureKind} (h : (consult call place rules).1 = some kind) :
    ∃ r ∈ rules, r.call = call := by
  induction rules with
  | nil => cases h
  | cons r rules ih =>
    unfold consult at h
    split at h
    · rename_i hit
      simp only [hits, Bool.and_eq_true, beq_iff_eq] at hit
      exact ⟨r, List.mem_cons_self, hit.1⟩
    · obtain ⟨r', hr', e⟩ := ih h
      exact ⟨r', List.mem_cons_of_mem _ hr', e⟩

theorem consult_cons_of_hits {r : FailureRule} {call : Call} {place : Key}
    (hit : r.hits call place = true) (now : r.skip = 0) (rules : List FailureRule) :
    consult call place (r :: rules) = (some r.kind, r :: rules) := by
  simp [consult, hit, now]

end FailureRule

namespace Memory

/-! ## Programs -/

theorem run_pure {α : Type} (a : α) (s : Memory) : (pure a : StateM Memory α) s = (a, s) := rfl

theorem run_bind {α β : Type} (x : StateM Memory α) (f : α → StateM Memory β) (s : Memory) :
    (x >>= f) s = f (x s).1 (x s).2 := rfl

theorem run_bind_except {ε α β : Type} (x : ExceptT ε (StateM Memory) α)
    (f : α → ExceptT ε (StateM Memory) β) (s : Memory) : (x >>= f).run s =
      match (x.run s).1 with
      | .ok a => (f a).run (x.run s).2
      | .error e => (.error e, (x.run s).2) := by
  simp only [ExceptT.run_bind, run_bind]
  cases (x.run s).1 <;> rfl

theorem run_isPresent (path : Path) (s : Memory) :
    Workspace.isPresent (m := StateM Memory) path s = ((s.tree.get? path.place).isSome, s) := rfl

theorem run_isDirectory (path : Path) (s : Memory) :
    Workspace.isDirectory (m := StateM Memory) path s = (s.tree.isDirectory path.place, s) := rfl

/-! ## Calls -/

section
variable {α : Type} {call : Call} {path : Path} {s : Memory}

theorem query_snd (run : FileTree String → Except FsError α) : (query call path run s).2 =
    { s with rules := (FailureRule.consult call path.place s.rules).2 } := by
  unfold query
  split <;> (rename_i e; rw [e])

theorem query_cases (run : FileTree String → Except FsError α) :
    (query call path run s).1 = run s.tree ∨
      (∃ e, (query call path run s).1 = .error e) ∧ ∃ r ∈ s.rules, r.call = call := by
  unfold query
  split
  · rename_i kind rules e
    exact .inr ⟨⟨_, rfl⟩, FailureRule.exists_of_consult (congrArg Prod.fst e)⟩
  · exact .inl rfl

theorem rules_update (call : Call) (path : Path)
    (run : FileTree String → Except FsError (FileTree String)) (s : Memory) :
    (update call path run s).2.rules = (FailureRule.consult call path.place s.rules).2 := by
  unfold update
  cases FailureRule.consult call path.place s.rules with
  | mk failure rules =>
    cases failure with
    | some kind => rfl
    | none => simp only; split <;> rfl

/-- A call that changes the tree gives the tree it was to give, or leaves it as it was. -/
theorem update_cases (call : Call) (path : Path)
    (run : FileTree String → Except FsError (FileTree String)) (s : Memory) :
    ((update call path run s).2.rules.map (·.call) = s.rules.map (·.call)) ∧
    ((∃ tree, run s.tree = .ok tree ∧ (update call path run s).1 = .ok () ∧
        (update call path run s).2.tree = tree) ∨
      (∃ e, (update call path run s).1 = .error e ∧ (update call path run s).2.tree = s.tree ∧
        (run s.tree = .error e ∨ ∃ r ∈ s.rules, r.call = call))) := by
  have calls := FailureRule.map_call_consult call path.place s.rules
  have hit := @FailureRule.exists_of_consult call path.place s.rules
  unfold update
  cases consulted : FailureRule.consult call path.place s.rules with
  | mk failure rules =>
    rw [consulted] at calls hit
    cases failure with
    | some kind => exact ⟨calls, .inr ⟨kind.error path, rfl, rfl, .inr (hit rfl)⟩⟩
    | none =>
      cases run s.tree with
      | error e => exact ⟨calls, .inr ⟨e, rfl, rfl, .inl rfl⟩⟩
      | ok tree => exact ⟨calls, .inl ⟨tree, rfl, rfl, rfl⟩⟩

end

end Memory
end Apportion
