import Apportion.Proofs.Workspace.Calls

/-!
Programs that only read. Such a program leaves tree and log of a workspace alone, and rules only
count down (`Memory.Same`). What it answers is told by the tree (`Steady`), or is an error that some
rule has caused (`Brittle`); `Reads` covers both, and everything in between that a program built from
such parts needs.
-/
namespace Apportion

namespace Memory

/-- Two workspaces that differ at most in the counts of rules for calls that read. -/
structure Same (s s' : Memory) : Prop where
  tree : s'.tree = s.tree
  calls : s'.rules.map (·.call) = s.rules.map (·.call)
  others : ∀ c, c ≠ .read → c ≠ .list →
    s'.rules.filter (·.call == c) = s.rules.filter (·.call == c)
  log : s'.log = s.log

theorem Same.refl (s : Memory) : Same s s := ⟨rfl, rfl, fun _ _ _ => rfl, rfl⟩

theorem Same.trans {s s' s'' : Memory} (h : Same s s') (h' : Same s' s'') : Same s s'' :=
  ⟨h'.tree.trans h.tree, h'.calls.trans h.calls,
    fun c hr hl => (h'.others c hr hl).trans (h.others c hr hl), h'.log.trans h.log⟩

/-- Without rules, nothing at all can differ. -/
theorem Same.eq_ofTree {s : Memory} {tree : FileTree String} (h : Same (ofTree tree) s) :
    s = ofTree tree := by
  obtain ⟨tree', rules, log⟩ := s
  have e₁ : tree' = tree := h.tree
  have e₂ : rules = [] := List.map_eq_nil_iff.mp h.calls
  have e₃ : log = [] := h.log
  rw [e₁, e₂, e₃, ofTree]

/-- Calls that read can be made to fail. -/
def Fallible (s : Memory) : Prop := ∃ c ∈ s.rules.map (·.call), c = .read ∨ c = .list

theorem Same.fallible_iff {s s' : Memory} (h : Same s s') : s'.Fallible ↔ s.Fallible := by
  rw [Fallible, h.calls, Fallible]

end Memory

open Memory

/-- A program that reads: its answer is the one it gives without rules, or calls can fail and both
answers are related. -/
def Reads {α : Type} (R : α → α → Prop) (f : StateM Memory α) : Prop :=
  ∀ s, Same s (f s).2 ∧
    ((f s).1 = (f (ofTree s.tree)).1 ∨ s.Fallible ∧ R (f s).1 (f (ofTree s.tree)).1)

/-- A program that reads and cannot fail. -/
abbrev Steady {α : Type} (f : StateM Memory α) : Prop := Reads (fun _ _ => False) f

/-- A program that reads, and gives an error if it cannot. -/
abbrev Brittle {ε α : Type} (f : StateM Memory (Except ε α)) : Prop :=
  Reads (fun a _ => ∃ e, a = .error e) f

namespace Reads
variable {α β ε ε' : Type} {R : α → α → Prop} {S : β → β → Prop}

theorem pure (a : α) : Reads R (pure a : StateM Memory α) := fun s => ⟨.refl s, .inl rfl⟩

theorem mono {f : StateM Memory α} {R' : α → α → Prop} (h : Reads R f)
    (le : ∀ a b, R a b → R' a b) : Reads R' f := fun s =>
  ⟨(h s).1, (h s).2.imp_right fun ⟨fallible, rel⟩ => ⟨fallible, le _ _ rel⟩⟩

theorem of_steady {f : StateM Memory α} (h : Steady f) : Reads R f :=
  h.mono fun _ _ no => no.elim

/-- A program whose answer is told by the tree, and that does nothing else. -/
theorem of_run {f : StateM Memory α} (h : ∀ s, f s = ((f (ofTree s.tree)).1, s)) : Steady f :=
  fun s => ⟨h s ▸ .refl s, .inl (by rw [h s])⟩

/-- One program after another: related answers of the first lead to related answers, or to equal
ones. -/
theorem bind {x : StateM Memory α} {f : α → StateM Memory β} (hx : Reads R x)
    (hf : ∀ a, Reads S (f a))
    (rel : ∀ a b, R a b → ∀ s t, (f a s).1 = (f b t).1 ∨ S (f a s).1 (f b t).1) :
    Reads S (x >>= f) := by
  intro s
  have rest : (x (ofTree s.tree)).2 = ofTree s.tree := (hx _).1.eq_ofTree
  have first := (hx s).1
  simp only [run_bind, rest]
  refine ⟨first.trans (hf _ _).1, ?_⟩
  rcases (hx s).2 with same | ⟨fallible, related⟩
  · have second := (hf (x s).1 (x s).2).2
    rw [first.tree, first.fallible_iff] at second
    rwa [← same]
  · exact (rel _ _ related _ _).imp_right fun h => ⟨fallible, h⟩

theorem bind_steady {x : StateM Memory α} {f : α → StateM Memory β} (hx : Steady x)
    (hf : ∀ a, Reads S (f a)) : Reads S (x >>= f) := hx.bind hf fun _ _ no => no.elim

/-- If any answer will do, the answers of the parts do not matter. -/
theorem bind_any {x : StateM Memory α} {f : α → StateM Memory β} (hx : Reads R x)
    (hf : ∀ a, Reads (fun _ _ => True) (f a)) : Reads (fun _ _ => True) (x >>= f) :=
  hx.bind hf fun _ _ _ _ _ => .inr trivial

/-- A program goes on only if there was no error. -/
theorem bind_brittle {x : StateM Memory (Except ε α)} {f : Except ε α → StateM Memory (Except ε' β)}
    (hx : Brittle x) (ok : ∀ a, Brittle (f (.ok a)))
    (error : ∀ e, ∃ e', f (.error e) = Pure.pure (.error e')) : Brittle (x >>= f) := by
  refine hx.bind (fun a => ?_) fun a b err s t => ?_
  · cases a with
    | ok a => exact ok a
    | error e =>
      obtain ⟨e', stop⟩ := error e
      rw [stop]
      exact .pure _
  · obtain ⟨e, rfl⟩ := err
    obtain ⟨e', stop⟩ := error e
    rw [stop]
    exact .inr ⟨e', rfl⟩

theorem bind_except {x : ExceptT ε (StateM Memory) α} {f : α → ExceptT ε (StateM Memory) β}
    (hx : Brittle x.run) (hf : ∀ a, Brittle (f a).run) : Brittle (x >>= f).run :=
  bind_brittle (f := ExceptT.bindCont f) hx hf fun e => ⟨e, rfl⟩

theorem run_ofTree {f : StateM Memory α} (h : Reads R f) (tree : FileTree String) :
    (f (ofTree tree)).2 = ofTree tree := (h (ofTree tree)).1.eq_ofTree

theorem eq_of_free {f : StateM Memory α} (h : Reads R f) {s : Memory} (free : s.rules = []) :
    (f s).1 = (f (ofTree s.tree)).1 :=
  (h s).2.resolve_right fun ⟨⟨_, call, _⟩, _⟩ => by simp [free] at call

/-- What a program gives under failure rules, it gives without them as well. -/
theorem ok_ofTree {f : StateM Memory (Except ε α)} (h : Brittle f) {s : Memory} {a : α}
    (ok : (f s).1 = .ok a) : (f (ofTree s.tree)).1 = .ok a := by
  rcases (h s).2 with same | ⟨-, e, failed⟩
  · exact same.symm.trans ok
  · cases failed.symm.trans ok

theorem ite {c : Prop} [Decidable c] {f g : StateM Memory α} (hf : Reads R f) (hg : Reads R g) :
    Reads R (if c then f else g) := by
  split
  · exact hf
  · exact hg

end Reads

/-! ## Calls that read -/

theorem steady_isDirectory (path : Path) :
    Steady (Workspace.isDirectory (m := StateM Memory) path) := fun s => ⟨.refl s, .inl rfl⟩

theorem brittle_query {α : Type} {call : Call} (h : call = .read ∨ call = .list) (path : Path)
    (run : FileTree String → Except FsError α) : Brittle (query call path run) := by
  intro s
  refine ⟨?_, ?_⟩
  · rw [query_snd]
    refine ⟨rfl, FailureRule.map_call_consult _ _ _, fun c hr hl => ?_, rfl⟩
    refine FailureRule.filter_consult (fun e => ?_) _ _
    rcases h with h | h
    · exact hr (e.trans h)
    · exact hl (e.trans h)
  · have free : (query call path run (ofTree s.tree)).1 = run s.tree := rfl
    rcases query_cases run with answer | ⟨error, r, hr, e⟩
    · exact .inl (answer.trans free.symm)
    · exact .inr ⟨⟨r.call, List.mem_map_of_mem hr, e ▸ h⟩, error⟩

theorem brittle_read (path : Path) : Brittle (Workspace.read (m := StateM Memory) path) :=
  brittle_query (.inl rfl) path _

theorem brittle_list (path : Path) : Brittle (Workspace.list (m := StateM Memory) path) :=
  brittle_query (.inr rfl) path _

end Apportion
