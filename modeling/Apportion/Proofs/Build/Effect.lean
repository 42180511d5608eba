import Apportion.Proofs.Build.Apply
import Apportion.Proofs.FileTree

/-!
What carrying a plan out does to the tree, apart from rules and logs. Each step acts on the tree as a
function that may fail does (`Acts`): a step that succeeds has that function's result, and without
failure rules it succeeds wherever the function does. The functions of the steps are joined as the
steps are (`acts_work`), so that a plan that is carried out tells the tree it leaves (`apply_eq_ok`).
-/
namespace Apportion
open Memory

/-- A program that changes a tree as a function does. -/
structure Acts (x : StateM Memory (Except BuildError Unit))
    (f : FileTree String → Except BuildError (FileTree String)) : Prop where
  sound : ∀ s, (x s).1 = .ok () → f s.tree = .ok (x s).2.tree
  complete : ∀ s, s.rules = [] →
    (x s).2.rules = [] ∧ ∀ tree, f s.tree = .ok tree → (x s).1 = .ok ()

namespace Acts

theorem pure : Acts (pure () : ExceptT BuildError (StateM Memory) Unit).run .ok :=
  ⟨fun _ _ => rfl, fun _ h => ⟨h, fun _ _ => rfl⟩⟩

theorem bind {x y : ExceptT BuildError (StateM Memory) Unit}
    {f g : FileTree String → Except BuildError (FileTree String)} (hx : Acts x.run f)
    (hy : Acts y.run g) : Acts (x >>= fun _ => y).run fun tree => f tree >>= g := by
  refine ⟨fun s h => ?_, fun s free => ?_⟩
  · rw [run_bind_except] at h ⊢
    cases hr : (x.run s).1 with
    | error e =>
      rw [hr] at h
      cases h
    | ok _ =>
      rw [hr] at h
      exact Except.bind_eq_ok.mpr ⟨_, hx.sound s hr, hy.sound _ h⟩
  · obtain ⟨free', first⟩ := hx.complete s free
    obtain ⟨free'', second⟩ := hy.complete _ free'
    rw [run_bind_except]
    constructor
    · cases (x.run s).1 with
      | error e => exact free'
      | ok _ => exact free''
    · intro tree h
      obtain ⟨between, hf, hg⟩ := Except.bind_eq_ok.mp h
      have done := first between hf
      have same : (x.run s).2.tree = between := by
        have := (hx.sound s done).symm.trans hf
        exact Except.ok.inj this
      rw [done]
      exact second tree (same ▸ hg)

/-- A step that the tree decides about. -/
theorem ite {x y z : StateM Memory (Except BuildError Unit)}
    {f g : FileTree String → Except BuildError (FileTree String)} {c : FileTree String → Bool}
    (h : ∀ s, x s = if c s.tree then y s else z s) (hy : Acts y f) (hz : Acts z g) :
    Acts x fun tree => if c tree then f tree else g tree := by
  refine ⟨fun s ok => ?_, fun s free => ?_⟩
  · rw [h] at ok ⊢
    cases hc : c s.tree with
    | true =>
      simp only [hc, ↓reduceIte] at ok ⊢
      exact hy.sound s ok
    | false =>
      simp only [hc, Bool.false_eq_true, ↓reduceIte] at ok ⊢
      exact hz.sound s ok
  · rw [h]
    cases hc : c s.tree with
    | true => exact hy.complete s free
    | false => exact hz.complete s free

end Acts

namespace Apply

/-- A call that changes the tree acts as the change. -/
theorem acts_update (call : Call) (path : Path)
    (run : FileTree String → Except FsError (FileTree String)) :
    Acts (attempt (update call path run)).run fun tree => (run tree).mapError .fs := by
  refine ⟨fun s h => ?_, fun s free => ?_⟩
  · rw [run_attempt] at h ⊢
    obtain ⟨-, ⟨tree, ok, -, e⟩ | ⟨e, failed, -, -⟩⟩ := update_cases call path run s
    · rw [e]
      exact Except.mapError_eq_ok.mpr ok
    · rw [failed] at h
      cases h
  · have rules := rules_update call path run s
    rw [free] at rules
    refine ⟨rules, fun tree h => ?_⟩
    obtain ⟨-, ⟨_, -, ok, -⟩ | ⟨e, -, -, failed | ⟨r, hr, -⟩⟩⟩ := update_cases call path run s
    · rw [run_attempt, ok]
      rfl
    · rw [failed] at h
      cases h
    · rw [free] at hr
      cases hr

/-! ## Directories -/

def replaceAt (path : Path) (tree : FileTree String) : Except BuildError (FileTree String) :=
  if (tree.get? path.place).isSome then
    (removeAt tree path).mapError .fs >>= fun tree => (createAt tree path).mapError .fs
  else (createAt tree path).mapError .fs

/-- What is there already is removed first. -/
theorem run_replaceDirectory_ite (path : Path) (s : Memory) :
    (replaceDirectory (m := StateM Memory) path).run s =
      if (s.tree.get? path.place).isSome then
        (attempt (Workspace.removeDirectory (m := StateM Memory) path) >>= fun _ =>
          attempt (Workspace.createDirectory (m := StateM Memory) path)).run s
      else (attempt (Workspace.createDirectory (m := StateM Memory) path)).run s := by
  have lifted : (liftM (Workspace.isPresent (m := StateM Memory) path) :
      ExceptT BuildError (StateM Memory) Bool).run s = (.ok (s.tree.get? path.place).isSome, s) := rfl
  rw [replaceDirectory, run_bind_except, lifted]
  dsimp only
  split <;> rfl

theorem acts_replaceDirectory (path : Path) :
    Acts (replaceDirectory (m := StateM Memory) path).run (replaceAt path) := by
  have remove := acts_update .removeDirectory path fun tree => removeAt tree path
  have create := acts_update .createDirectory path fun tree => createAt tree path
  exact .ite (run_replaceDirectory_ite path) (remove.bind create) create

/-- The directories after the first are tried whatever became of it. -/
theorem run_createDirectories_cons (path : Path) (rest : List Path) (s : Memory) :
    createDirectories (m := StateM Memory) (path :: rest) s =
      (((replaceDirectory (m := StateM Memory) path).run s).1 >>= fun _ =>
          (createDirectories (m := StateM Memory) rest
            ((replaceDirectory (m := StateM Memory) path).run s).2).1,
        (createDirectories (m := StateM Memory) rest
          ((replaceDirectory (m := StateM Memory) path).run s).2).2) := by
  rw [createDirectories, run_bind]
  cases ((replaceDirectory (m := StateM Memory) path).run s).1 <;> rfl

/-- All directories are tried, and all have to succeed. -/
theorem acts_createDirectories (roots : List Path) :
    Acts (createDirectories (m := StateM Memory) roots)
      fun tree => roots.foldlM (fun tree path => replaceAt path tree) tree := by
  induction roots with
  | nil => exact Acts.pure
  | cons path rest ih =>
    have first := acts_replaceDirectory path
    refine ⟨fun s h => ?_, fun s free => ?_⟩
    · rw [run_createDirectories_cons] at h ⊢
      cases hr : ((replaceDirectory (m := StateM Memory) path).run s).1 with
      | error e =>
        rw [hr] at h
        cases h
      | ok _ =>
        rw [hr] at h
        exact Except.bind_eq_ok.mpr ⟨_, first.sound s hr, ih.sound _ h⟩
    · obtain ⟨free', done⟩ := first.complete s free
      obtain ⟨free'', later⟩ := ih.complete _ free'
      refine ⟨by rw [run_createDirectories_cons]; exact free'', fun tree h => ?_⟩
      obtain ⟨between, hf, hg⟩ := Except.bind_eq_ok.mp h
      have hr := done between hf
      have same := Except.ok.inj ((first.sound s hr).symm.trans hf)
      rw [run_createDirectories_cons, hr]
      exact later tree (same ▸ hg)

/-! ## Files -/

/-- The text of a supply, given the tree as it is when its turn comes. -/
def Supply.at (tree : FileTree String) : Supply → Except BuildError String
  | .known text => text
  | .stored source revise => (readAt tree source).mapError .fs >>= revise

def Task.actAt (t : Task) (tree : FileTree String) : Except BuildError (FileTree String) :=
  t.supply.at tree >>= fun text => (writeAt tree t.target text).mapError .fs

/-- A supply that is at hand is the one that the tree tells, and the tree stays as it is. -/
theorem text_eq_ok {u : Supply} {s : Memory} {text : String}
    (h : ((u.text (m := StateM Memory)).run s).1 = .ok text) :
    u.at s.tree = .ok text ∧ ((u.text (m := StateM Memory)).run s).2.tree = s.tree := by
  cases u with
  | known _ => exact ⟨h, rfl⟩
  | stored source revise =>
    have state : (Workspace.read (m := StateM Memory) source s).2.tree = s.tree := by
      show (query .read source (fun tree => readAt tree source) s).2.tree = s.tree
      rw [query_snd]
    have result : (Workspace.read (m := StateM Memory) source s).1 = readAt s.tree source ∨
        ∃ e, (Workspace.read (m := StateM Memory) source s).1 = .error e :=
      (query_cases fun tree => readAt tree source).imp_right And.left
    simp only [Supply.text, run_bind_except, run_attempt] at h ⊢
    cases hr : (Workspace.read (m := StateM Memory) source s).1 with
    | error e =>
      rw [hr] at h
      cases h
    | ok raw =>
      rw [hr] at h result
      rcases result with read | ⟨e, failed⟩
      · exact ⟨Except.bind_eq_ok.mpr ⟨raw, by rw [← read]; rfl, h⟩, state⟩
      · cases failed

/-- Without failure rules a supply is what the tree tells. -/
theorem run_text_of_free (u : Supply) {s : Memory} (free : s.rules = []) :
    (u.text (m := StateM Memory)).run s = (u.at s.tree, s) := by
  cases u with
  | known _ => rfl
  | stored source revise =>
    obtain ⟨tree, rules, log⟩ := s
    cases free
    have read : Workspace.read (m := StateM Memory) source ⟨tree, [], log⟩ =
      (readAt tree source, ⟨tree, [], log⟩) := rfl
    simp only [Supply.text, run_bind_except, run_attempt, read, Supply.at]
    cases readAt tree source <;> rfl

theorem acts_run (t : Task) : Acts (t.run (m := StateM Memory)).run t.actAt := by
  have write (text : String) := acts_update .write t.target fun tree => writeAt tree t.target text
  refine ⟨fun s h => ?_, fun s free => ?_⟩
  · unfold Task.run at h ⊢
    rw [run_bind_except] at h ⊢
    cases hr : ((t.supply.text (m := StateM Memory)).run s).1 with
    | error e =>
      rw [hr] at h
      cases h
    | ok text =>
      rw [hr] at h
      obtain ⟨supplied, same⟩ := text_eq_ok hr
      exact Except.bind_eq_ok.mpr ⟨text, supplied, same ▸ (write text).sound _ h⟩
  · unfold Task.run
    rw [run_bind_except, run_text_of_free _ free]
    unfold Task.actAt
    cases t.supply.at s.tree with
    | error e => exact ⟨free, fun _ h => by cases h⟩
    | ok text => exact (write text).complete s free

theorem acts_runAll (tasks : List Task) : Acts (runAll (m := StateM Memory) tasks).run
    fun tree => tasks.foldlM (fun tree t => t.actAt tree) tree := by
  induction tasks with
  | nil => exact Acts.pure
  | cons t rest ih => exact (acts_run t).bind ih

/-! ## The work as a whole -/

def Work.actAt (w : Work) (tree : FileTree String) : Except BuildError (FileTree String) :=
  w.directories.foldlM (fun tree path => replaceAt path tree) tree >>= fun tree =>
    w.tasks.foldlM (fun tree t => t.actAt tree) tree

theorem Work.actAt_eq (w : Work) : w.actAt = fun tree =>
    w.directories.foldlM (fun tree path => replaceAt path tree) tree >>=
    fun tree => w.manifests.foldlM (fun tree t => t.actAt tree) tree >>=
    fun tree => w.revisions.foldlM (fun tree t => t.actAt tree) tree >>=
    fun tree => w.compositions.foldlM (fun tree t => t.actAt tree) tree >>=
    fun tree => w.copies.foldlM (fun tree t => t.actAt tree) tree := by
  funext tree
  simp only [Work.actAt, Work.tasks, List.foldlM_append, bind_assoc]

theorem acts_work (w : Work) : Acts (w.run (m := StateM Memory)).run w.actAt := by
  have files := (acts_runAll w.manifests).bind <| (acts_runAll w.revisions).bind <|
    (acts_runAll w.compositions).bind (acts_runAll w.copies)
  have all := Acts.bind (x := ExceptT.mk (createDirectories (m := StateM Memory) w.directories))
    (acts_createDirectories w.directories) files
  rw [w.actAt_eq]
  exact all

variable {mark : String} {artifacts : List Artifact} {changes : ChangeSet} {paths : PathMap}
  {s : Memory}

theorem run_apply (destined : changes.destinations = .ok paths) :
    apply (m := StateM Memory) mark artifacts changes s =
      match ((work mark artifacts changes paths).run (m := StateM Memory)).run s with
      | (.ok _, s') => (.ok (work mark artifacts changes paths).summary, s')
      | (.error e, s') => (.error e,
          (rollBack (m := StateM Memory) (work mark artifacts changes paths).directories s').2) := by
  simp only [apply, destined, Work.runOrRollBack, run_bind]
  cases ((work mark artifacts changes paths).run (m := StateM Memory)).run s with
  | mk result s' => cases result <;> rfl

/-- A plan that is carried out has counted its work and left the tree that the work makes. -/
theorem apply_eq_ok (destined : changes.destinations = .ok paths) {summary : Summary}
    (h : (apply (m := StateM Memory) mark artifacts changes s).1 = .ok summary) :
    summary = (work mark artifacts changes paths).summary ∧
      (work mark artifacts changes paths).actAt s.tree =
        .ok (apply (m := StateM Memory) mark artifacts changes s).2.tree := by
  have sound := (acts_work (work mark artifacts changes paths)).sound s
  rw [run_apply destined] at h ⊢
  cases hr : ((work mark artifacts changes paths).run (m := StateM Memory)).run s with
  | mk result s' =>
    rw [hr] at h sound
    cases result with
    | error e => cases h
    | ok _ =>
      cases h
      exact ⟨rfl, sound rfl⟩

/-- Without failure rules, a plan is carried out exactly if its work makes a tree. -/
theorem apply_isOk_iff (destined : changes.destinations = .ok paths) (free : s.rules = []) :
    (∃ summary, (apply (m := StateM Memory) mark artifacts changes s).1 = .ok summary) ↔
      ∃ tree, (work mark artifacts changes paths).actAt s.tree = .ok tree := by
  constructor
  · rintro ⟨summary, h⟩
    exact ⟨_, (apply_eq_ok destined h).2⟩
  · rintro ⟨tree, h⟩
    have done := ((acts_work (work mark artifacts changes paths)).complete s free).2 tree h
    rw [run_apply destined]
    cases hr : ((work mark artifacts changes paths).run (m := StateM Memory)).run s with
    | mk result s' =>
      rw [hr] at done
      cases done
      exact ⟨_, rfl⟩

end Apply
end Apportion
