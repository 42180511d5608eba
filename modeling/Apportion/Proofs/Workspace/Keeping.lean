import Apportion.Proofs.Workspace.Reading

/-!
Programs that keep an invariant. What every call of a program keeps, the program keeps
(`Keeps.bind`), and what is told by tree and rules alone, every program that reads keeps
(`Keeps.of_reads`).
-/
namespace Apportion
open Memory

/-- An invariant that is told by the tree, and by which calls there are rules for. -/
def Told (I : Memory → Prop) : Prop :=
  ∀ s s', s'.tree = s.tree → s'.rules.map (·.call) = s.rules.map (·.call) → I s → I s'

/-- Wherever the invariant holds before a program, it holds after it. -/
def Keeps {α : Type} (I : Memory → Prop) (f : StateM Memory α) : Prop := ∀ s, I s → I (f s).2

namespace Keeps
variable {α β ε : Type} {I : Memory → Prop}

theorem pure (a : α) : Keeps I (pure a : StateM Memory α) := fun _ h => h

theorem bind {x : StateM Memory α} {f : α → StateM Memory β} (hx : Keeps I x)
    (hf : ∀ a, Keeps I (f a)) : Keeps I (x >>= f) := fun s h => hf _ _ (hx s h)

theorem map {x : StateM Memory α} {g : α → β} (hx : Keeps I x) : Keeps I (g <$> x) :=
  fun s h => hx s h

theorem bind_except {x : ExceptT ε (StateM Memory) α} {f : α → ExceptT ε (StateM Memory) β}
    (hx : Keeps I x.run) (hf : ∀ a, Keeps I (f a).run) : Keeps I (x >>= f).run := by
  have next : ∀ a, Keeps I (ExceptT.bindCont f a) := by
    intro a
    cases a with
    | ok a => exact hf a
    | error e => exact .pure _
  exact Keeps.bind hx next

theorem of_reads {R : α → α → Prop} {f : StateM Memory α} (told : Told I) (hf : Reads R f) :
    Keeps I f := fun s h => told s _ (hf s).1.tree (hf s).1.calls h

theorem warn (w : Warning) : Keeps I (Workspace.warn (m := StateM Memory) w) := fun _ h => h

end Keeps

/-! ## Calls that change the tree -/

theorem Memory.writeAt_eq_ok {t t' : FileTree String} {path : Path} {text : String}
    (h : writeAt t path text = .ok t') : t' = t.put path.place text ∧
      t.isDirectory path.place = false ∧
      ∀ k ∈ FileTree.above path.place, t.isFile k = false := by
  unfold writeAt at h
  simp only at h
  split at h
  · cases h
  · rename_i vacant
    split at h
    · cases h
    · rename_i free
      cases h
      refine ⟨rfl, Bool.eq_false_iff.mpr vacant, fun k hk => ?_⟩
      exact Bool.eq_false_iff.mpr (List.find?_eq_none.mp free k hk)

theorem Memory.writeAt_of_free {t : FileTree String} {path : Path} (text : String)
    (vacant : t.isDirectory path.place = false)
    (free : ∀ k ∈ FileTree.above path.place, t.isFile k = false) :
    writeAt t path text = .ok (t.put path.place text) := by
  have none := List.find?_eq_none.mpr fun k hk => Bool.eq_false_iff.mp (free k hk)
  simp only [writeAt, vacant, none, Bool.false_eq_true, ↓reduceIte]

theorem Memory.createAt_eq_ok {t t' : FileTree String} {path : Path}
    (h : createAt t path = .ok t') : t' = t.mkdirs path.place ∧
      ∀ k ∈ FileTree.above path.place ++ [path.place], t.isFile k = false := by
  unfold createAt at h
  simp only at h
  split at h
  · cases h
  · rename_i free
    cases h
    exact ⟨rfl, fun k hk => Bool.eq_false_iff.mpr (List.find?_eq_none.mp free k hk)⟩

theorem Memory.createAt_of_free {t : FileTree String} {path : Path}
    (free : ∀ k ∈ FileTree.above path.place ++ [path.place], t.isFile k = false) :
    createAt t path = .ok (t.mkdirs path.place) := by
  have none := List.find?_eq_none.mpr fun k hk => Bool.eq_false_iff.mp (free k hk)
  simp only [createAt, none]

theorem Memory.removeAt_eq_ok {t t' : FileTree String} {path : Path} (h : removeAt t path = .ok t') :
    t' = t.remove path.place ∧ t.isDirectory path.place = true := by
  unfold removeAt at h
  split at h
  · rename_i directory
    cases h
    exact ⟨rfl, directory⟩
  · cases h

/-- A call that changes the tree keeps an invariant if the change does. -/
theorem keeps_update {I : Memory → Prop} {call : Call} {path : Path}
    {run : FileTree String → Except FsError (FileTree String)} (told : Told I)
    (step : ∀ s s', I s → s'.rules.map (·.call) = s.rules.map (·.call) →
      run s.tree = .ok s'.tree → I s') : Keeps I (update call path run) := by
  intro s h
  obtain ⟨calls, ⟨tree, ok, -, e⟩ | ⟨-, -, e, -⟩⟩ := update_cases call path run s
  · exact step s _ h calls (by rw [ok, e])
  · exact told s _ e calls h

end Apportion
