import Apportion.Proofs.Build.Written

/-!
Work under rules that last. A rule that never lets a call pass first makes a call fail by its place
alone (`consult_of_lasting`). So if no call to remove a directory is refused, work succeeds exactly if
none of its other calls is refused and its functions on the tree succeed (`granted_work`), and the rules
are the same afterwards.
-/
namespace Apportion
open Memory

namespace FailureRule

def Grants (rules : List FailureRule) (call : Call) (place : Key) : Prop :=
  ∀ r ∈ rules, r.hits call place = false

/-- Rules that let no call pass are not changed by calls, and a call fails exactly if one hits it. -/
theorem consult_of_lasting {rules : List FailureRule} (lasting : ∀ r ∈ rules, r.skip = 0)
    (call : Call) (place : Key) : (consult call place rules).2 = rules ∧
      ((consult call place rules).1 = none ↔ Grants rules call place) := by
  induction rules with
  | nil => exact ⟨rfl, fun _ => by simp [Grants], fun _ => rfl⟩
  | cons r rules ih =>
    obtain ⟨same, none⟩ := ih fun r hr => lasting r (List.mem_cons_of_mem _ hr)
    simp only [consult, lasting r List.mem_cons_self, ↓reduceIte, Grants, List.forall_mem_cons]
    by_cases hit : r.hits call place = true
    · simp [hit]
    · have miss : r.hits call place = false := Bool.eq_false_iff.mpr hit
      simp only [miss, Bool.false_eq_true, ↓reduceIte, same, true_and]
      exact none

end FailureRule

open FailureRule

/-- A program that changes a tree as a function does unless a call is refused: if the calls it needs
are granted, it succeeds exactly where the function does. -/
structure Granted (rules : List FailureRule) (needs : Prop)
    (x : StateM Memory (Except BuildError Unit))
    (f : FileTree String → Except BuildError (FileTree String)) : Prop where
  acts : Acts x f
  lasts : ∀ s, s.rules = rules → (x s).2.rules = rules
  ok_iff : ∀ s, s.rules = rules → ((x s).1 = .ok () ↔ needs ∧ ∃ tree, f s.tree = .ok tree)

namespace Granted
variable {rules : List FailureRule} {P Q : Prop}

theorem congr {x : StateM Memory (Except BuildError Unit)}
    {f : FileTree String → Except BuildError (FileTree String)} (h : Granted rules P x f)
    (same : P ↔ Q) : Granted rules Q x f := propext same ▸ h

theorem pure : Granted rules True (pure () : ExceptT BuildError (StateM Memory) Unit).run .ok :=
  ⟨.pure, fun _ h => h, fun s _ => ⟨fun _ => ⟨trivial, s.tree, rfl⟩, fun _ => rfl⟩⟩

theorem bind {x y : ExceptT BuildError (StateM Memory) Unit}
    {f g : FileTree String → Except BuildError (FileTree String)} (hx : Granted rules P x.run f)
    (hy : Granted rules Q y.run g) :
    Granted rules (P ∧ Q) (x >>= fun _ => y).run fun tree => f tree >>= g := by
  refine ⟨hx.acts.bind hy.acts, fun s h => ?_, fun s h => ?_⟩
  · rw [run_bind_except]
    cases (x.run s).1 with
    | error e => exact hx.lasts s h
    | ok _ => exact hy.lasts _ (hx.lasts s h)
  · rw [run_bind_except]
    have first := hx.ok_iff s h
    cases hr : (x.run s).1 with
    | error e =>
      rw [hr] at first
      refine iff_of_false (by simp) fun ⟨needs, tree, done⟩ => ?_
      obtain ⟨between, hf, -⟩ := Except.bind_eq_ok.mp done
      exact absurd (first.mpr ⟨needs.1, between, hf⟩) (by simp)
    | ok _ =>
      have done := hx.acts.sound s hr
      simp only [hy.ok_iff _ (hx.lasts s h), done, (first.mp hr).1, true_and]
      rfl

/-- A step that the tree decides about. -/
theorem ite {x y z : StateM Memory (Except BuildError Unit)}
    {f g : FileTree String → Except BuildError (FileTree String)} {c : FileTree String → Bool}
    (h : ∀ s, x s = if c s.tree then y s else z s) (hy : Granted rules P y f)
    (hz : Granted rules P z g) : Granted rules P x fun tree => if c tree then f tree else g tree := by
  refine ⟨.ite h hy.acts hz.acts, fun s same => ?_, fun s same => ?_⟩
  · rw [h]
    cases c s.tree with
    | true => exact hy.lasts s same
    | false => exact hz.lasts s same
  · rw [h]
    cases hc : c s.tree with
    | true => simpa [hc] using hy.ok_iff s same
    | false => simpa [hc] using hz.ok_iff s same

end Granted

namespace Apply
variable {rules : List FailureRule}

theorem granted_update (lasting : ∀ r ∈ rules, r.skip = 0) (call : Call) (path : Path)
    (run : FileTree String → Except FsError (FileTree String)) :
    Granted rules (Grants rules call path.place) (attempt (update call path run)).run
      fun tree => (run tree).mapError .fs := by
  refine ⟨acts_update call path run, fun s h => ?_, fun s h => ?_⟩
  · rw [run_attempt]
    subst h
    exact (rules_update call path run s).trans (consult_of_lasting lasting call path.place).1
  · subst h
    have none := (consult_of_lasting lasting call path.place).2
    rw [run_attempt, ← none]
    unfold update
    cases FailureRule.consult call path.place s.rules with
    | mk failure rules =>
      cases failure with
      | some kind => simp [Except.mapError]
      | none => cases run s.tree <;> simp [Except.mapError]

/-! ## Directories -/

section
variable (lasting : ∀ r ∈ rules, r.skip = 0) (removable : ∀ r ∈ rules, r.call ≠ .removeDirectory)
include lasting removable

theorem granted_replaceDirectory (path : Path) :
    Granted rules (Grants rules .createDirectory path.place)
      (replaceDirectory (m := StateM Memory) path).run (replaceAt path) := by
  have granted : Grants rules .removeDirectory path.place := fun r hr => by
    simp [hits, removable r hr]
  have remove := granted_update lasting .removeDirectory path fun tree => removeAt tree path
  have create := granted_update lasting .createDirectory path fun tree => createAt tree path
  exact .ite (run_replaceDirectory_ite path) ((remove.bind create).congr (and_iff_right granted)) create

theorem granted_createDirectories (roots : List Path) :
    Granted rules (∀ root ∈ roots, Grants rules .createDirectory root.place)
      (createDirectories (m := StateM Memory) roots)
      fun tree => roots.foldlM (fun tree path => replaceAt path tree) tree := by
  induction roots with
  | nil =>
    exact Granted.pure.congr (by simp)
  | cons path rest ih =>
    have first := granted_replaceDirectory lasting removable path
    refine ⟨acts_createDirectories _, fun s h => ?_, fun s h => ?_⟩
    · rw [run_createDirectories_cons]
      exact ih.lasts _ (first.lasts s h)
    · rw [run_createDirectories_cons, List.forall_mem_cons]
      have here := first.ok_iff s h
      have later := ih.ok_iff _ (first.lasts s h)
      cases hr : ((replaceDirectory (m := StateM Memory) path).run s).1 with
      | error e =>
        rw [hr] at here
        refine iff_of_false (by simp [bind, Except.bind]) fun ⟨needs, tree, done⟩ => ?_
        obtain ⟨between, hf, -⟩ := Except.bind_eq_ok.mp done
        exact absurd (here.mpr ⟨needs.1, between, hf⟩) (by simp)
      | ok _ =>
        have done := first.acts.sound s hr
        simp only [List.foldlM_cons, done, (here.mp hr).1, true_and]
        exact later

end

/-! ## Files -/

theorem granted_run (lasting : ∀ r ∈ rules, r.skip = 0) {t : Task}
    (known : ∃ x, t.supply = .known x) :
    Granted rules (Grants rules .write t.target.place) (t.run (m := StateM Memory)).run t.actAt := by
  obtain ⟨x, hx⟩ := known
  have act := acts_run t
  obtain ⟨target, _⟩ := t
  subst hx
  have write (text : String) :=
    granted_update lasting .write target fun tree => writeAt tree target text
  have runs : ∀ s, ((Task.run (m := StateM Memory) ⟨target, .known x⟩).run s) = match x with
      | .ok text => (attempt (Workspace.write (m := StateM Memory) target text)).run s
      | .error e => (.error e, s) := fun s => by
    rw [Task.run, run_bind_except]
    cases x <;> rfl
  cases x with
  | error e =>
    refine ⟨act, fun s h => by rw [runs]; exact h, fun s h => ?_⟩
    rw [runs]
    refine iff_of_false (by simp) fun ⟨_, tree, done⟩ => ?_
    cases done
  | ok text =>
    refine ⟨act, fun s h => ?_, fun s h => ?_⟩
    · rw [runs]
      exact (write text).lasts s h
    · rw [runs]
      exact (write text).ok_iff s h

theorem granted_runAll (lasting : ∀ r ∈ rules, r.skip = 0) {tasks : List Task}
    (known : ∀ t ∈ tasks, ∃ x, t.supply = .known x) :
    Granted rules (∀ t ∈ tasks, Grants rules .write t.target.place)
      (runAll (m := StateM Memory) tasks).run
      fun tree => tasks.foldlM (fun tree t => t.actAt tree) tree := by
  induction tasks with
  | nil =>
    exact Granted.pure.congr (by simp)
  | cons t rest ih =>
    have first := granted_run lasting (known t List.mem_cons_self)
    have later := ih fun u hu => known u (List.mem_cons_of_mem t hu)
    exact (first.bind later).congr (by rw [List.forall_mem_cons])

/-- Under rules that last, work succeeds exactly if none of its calls is refused and its functions on
the tree succeed. -/
theorem granted_work (lasting : ∀ r ∈ rules, r.skip = 0)
    (removable : ∀ r ∈ rules, r.call ≠ .removeDirectory) {w : Work}
    (known : ∀ t ∈ w.tasks, ∃ x, t.supply = .known x) :
    Granted rules ((∀ root ∈ w.directories, Grants rules .createDirectory root.place) ∧
      ∀ t ∈ w.tasks, Grants rules .write t.target.place) (w.run (m := StateM Memory)).run w.actAt := by
  have part {tasks : List Task} (sub : ∀ t ∈ tasks, t ∈ w.tasks) :=
    granted_runAll lasting fun t ht => known t (sub t ht)
  have files := (part fun t (ht : t ∈ w.manifests) => by simp [Work.tasks, ht]).bind <|
    (part fun t (ht : t ∈ w.revisions) => by simp [Work.tasks, ht]).bind <|
    (part fun t (ht : t ∈ w.compositions) => by simp [Work.tasks, ht]).bind
      (part fun t (ht : t ∈ w.copies) => by simp [Work.tasks, ht])
  have all := Granted.bind (x := ExceptT.mk (createDirectories (m := StateM Memory) w.directories))
    (granted_createDirectories lasting removable w.directories) files
  rw [w.actAt_eq]
  refine all.congr ?_
  simp only [Work.tasks, List.forall_mem_append, and_assoc]

end Apply
end Apportion
