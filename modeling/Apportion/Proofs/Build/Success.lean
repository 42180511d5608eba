import Apportion.Proofs.Build.Effect
import Apportion.Proofs.Build.Rollback

/-!
Builds that succeed. The ignore list is written by a function of the tree (`Build.listAt`), as the plan
is carried out by one. So a build that succeeds tells the tree it leaves (`run_eq_ok`), and without
failure rules it succeeds wherever these functions do (`run_of_free`).
-/
namespace Apportion
open Memory

/-! ## The ignore list -/

namespace IgnoreList
variable {root path : Path} {location : Location} {names : List String} {s : Memory}

def templateAt (tree : FileTree String) (path : Path) : Except FsError String :=
  if (tree.get? path.place).isSome then readAt tree path else .ok ""

def writtenAt (root : Path) (location : Location) (names : List String) (tree : FileTree String) :
    Except FsError (FileTree String) :=
  templateAt tree (root.join location.template) >>= fun template =>
    writeAt tree (root.join location.file) (render template names)

theorem map_write_eq_ok {text : String}
    (h : (Workspace.write (m := StateM Memory) path text s).1.map (fun _ => path) = .ok root) :
    root = path ∧ writeAt s.tree path text =
      .ok (Workspace.write (m := StateM Memory) path text s).2.tree := by
  obtain ⟨_, written, rfl⟩ := Except.map_eq_ok.mp h
  obtain ⟨-, ⟨tree, ok, -, e⟩ | ⟨e, failed, -⟩⟩ :=
    update_cases .write path (fun tree => writeAt tree path text) s
  · exact ⟨rfl, by rw [ok]; exact congrArg Except.ok e.symm⟩
  · cases written.symm.trans failed

theorem write_eq_ok (h : (write (m := StateM Memory) root location names s).1 = .ok path) :
    path = root.join location.file ∧ writtenAt root location names s.tree =
      .ok (write (m := StateM Memory) root location names s).2.tree := by
  simp only [write, run_bind, run_isPresent] at h ⊢
  unfold writtenAt templateAt
  by_cases present : (s.tree.get? (root.join location.template).place).isSome = true
  · have same := (brittle_read (root.join location.template) s).1.tree
    have result : (Workspace.read (m := StateM Memory) (root.join location.template) s).1 =
        readAt s.tree (root.join location.template) ∨ ∃ e,
        (Workspace.read (m := StateM Memory) (root.join location.template) s).1 = .error e :=
      (query_cases fun tree => readAt tree (root.join location.template)).imp_right And.left
    simp only [present, ↓reduceIte, run_bind] at h ⊢
    cases text : (Workspace.read (m := StateM Memory) (root.join location.template) s).1 with
    | error e =>
      rw [text] at h
      cases h
    | ok template =>
      rw [text] at h result
      have read := result.resolve_right (by rintro ⟨e, failed⟩; cases failed)
      rw [← read]
      simp only [run_bind, run_pure] at h ⊢
      obtain ⟨rfl, written⟩ := map_write_eq_ok h
      rw [same] at written
      exact ⟨rfl, Except.bind_eq_ok.mpr ⟨template, rfl, written⟩⟩
  · simp only [present, Bool.false_eq_true, ↓reduceIte, run_bind, run_pure] at h ⊢
    obtain ⟨rfl, written⟩ := map_write_eq_ok h
    exact ⟨rfl, Except.bind_eq_ok.mpr ⟨"", rfl, written⟩⟩

theorem write_of_free (free : s.rules = []) {tree : FileTree String}
    (h : writtenAt root location names s.tree = .ok tree) :
    (write (m := StateM Memory) root location names s).1 = .ok (root.join location.file) := by
  obtain ⟨before, rules, log⟩ := s
  cases free
  have written : ∀ text, writeAt before (root.join location.file) text = .ok tree →
      (Workspace.write (m := StateM Memory) (root.join location.file) text ⟨before, [], log⟩).1 =
        .ok () := by
    intro text ok
    obtain ⟨-, ⟨-, -, done, -⟩ | ⟨e, -, -, failed | ⟨r, hr, -⟩⟩⟩ := update_cases .write
      (root.join location.file) (fun tree => writeAt tree (root.join location.file) text)
      ⟨before, [], log⟩
    · exact done
    · cases ok.symm.trans failed
    · cases hr
  obtain ⟨template, found, ok⟩ := Except.bind_eq_ok.mp h
  simp only [write, run_bind, run_isPresent]
  unfold templateAt at found
  by_cases present : (before.get? (root.join location.template).place).isSome = true
  · rw [if_pos present] at found
    have read : Workspace.read (m := StateM Memory) (root.join location.template)
        ⟨before, [], log⟩ = (readAt before (root.join location.template), ⟨before, [], log⟩) := rfl
    simp only [present, ↓reduceIte, run_bind, read, found, run_pure, written _ ok, Except.map]
  · rw [if_neg present] at found
    cases found
    simp only [present, Bool.false_eq_true, ↓reduceIte, run_bind, run_pure, written _ ok, Except.map]

end IgnoreList

namespace Build
variable {e : Emitter} {d : Discovery} {o : BuildOptions} {s : Memory} {result : BuildResult}

def listAt (o : BuildOptions) (names : List String) (tree : FileTree String) :
    Except BuildError (FileTree String) :=
  match o.ignore with
  | none => .ok tree
  | some location => (IgnoreList.writtenAt o.projectRoot location names tree).mapError .fs

def listed (o : BuildOptions) (result : BuildResult) : BuildResult :=
  match o.ignore with
  | none => result
  | some location => { result with ignoreFile := some (o.projectRoot.join location.file) }

@[simp] theorem changes_listed : (listed o result).changes = result.changes := by
  unfold listed
  split <;> rfl

theorem writeIgnoreList_eq_ok {final : BuildResult}
    (h : (writeIgnoreList (m := StateM Memory) o result s).1 = .ok final) :
    final = listed o result ∧ listAt o result.packageNames s.tree =
      .ok (writeIgnoreList (m := StateM Memory) o result s).2.tree := by
  unfold writeIgnoreList at h ⊢
  unfold listed listAt
  cases ignore : o.ignore with
  | none =>
    simp only [ignore] at h ⊢
    cases h
    exact ⟨rfl, rfl⟩
  | some location =>
    simp only [ignore, run_bind] at h ⊢
    cases written : (IgnoreList.write (m := StateM Memory) o.projectRoot location
        result.packageNames s).1 with
    | error e =>
      rw [written] at h
      cases h
    | ok path =>
      rw [written] at h
      cases h
      obtain ⟨rfl, tree⟩ := IgnoreList.write_eq_ok written
      simp only [run_pure, true_and]
      exact Except.mapError_eq_ok.mpr tree

theorem writeIgnoreList_of_free (free : s.rules = []) {tree : FileTree String}
    (h : listAt o result.packageNames s.tree = .ok tree) :
    (writeIgnoreList (m := StateM Memory) o result s).1 = .ok (listed o result) := by
  unfold writeIgnoreList listed
  unfold listAt at h
  cases ignore : o.ignore with
  | none => rfl
  | some location =>
    simp only [ignore] at h
    have written := IgnoreList.write_of_free free (Except.mapError_eq_ok.mp h)
    simp only [run_bind, written]
    rfl

/-! ## The build -/

/-- A build that succeeds has prepared a plan, carried it out and written the ignore list, which
together tell the tree it leaves. -/
theorem run_eq_ok (wet : o.dryRun = false)
    (h : (run (m := StateM Memory) e d o s).1 = .ok result) :
    ∃ artifacts planned paths between,
      ((prepare (m := StateM Memory) e d o).run s).1 = .ok (artifacts, planned) ∧
      planned.changes.destinations = .ok paths ∧
      (Apply.work o.builtinMark artifacts planned.changes paths).actAt s.tree = .ok between ∧
      listAt o planned.packageNames between = .ok (run (m := StateM Memory) e d o s).2.tree ∧
      result = listed o { planned with
        applied := some (Apply.work o.builtinMark artifacts planned.changes paths).summary } := by
  have same := ((brittle_prepare (e := e) (d := d) (o := o)) s).1
  cases prepared : ((prepare (m := StateM Memory) e d o).run s).1 with
  | error cause =>
    rw [run_of_error prepared] at h
    cases h
  | ok made =>
    obtain ⟨artifacts, planned⟩ := made
    rw [run_of_ok prepared, if_neg (by simp [wet])] at h ⊢
    simp only [finish, run_bind] at h ⊢
    cases applied : (Apply.apply (m := StateM Memory) o.builtinMark artifacts planned.changes
        ((prepare (m := StateM Memory) e d o).run s).2).1 with
    | error cause =>
      rw [applied] at h
      cases h
    | ok summary =>
      rw [applied] at h
      cases destined : planned.changes.destinations with
      | error conflict =>
        simp only [Apply.apply, destined] at applied
        cases applied
      | ok paths =>
        obtain ⟨rfl, worked⟩ := Apply.apply_eq_ok destined applied
        obtain ⟨rfl, tree⟩ := writeIgnoreList_eq_ok h
        exact ⟨artifacts, planned, paths, _, rfl, destined, same.tree ▸ worked, tree, rfl⟩

/-- Without failure rules, a build succeeds if its plan can be carried out and the ignore list can be
written. -/
theorem run_of_free (wet : o.dryRun = false) (free : s.rules = []) {artifacts : List Artifact}
    {planned : BuildResult} {paths : PathMap} {between tree : FileTree String}
    (prepared : ((prepare (m := StateM Memory) e d o).run s).1 = .ok (artifacts, planned))
    (destined : planned.changes.destinations = .ok paths)
    (worked : (Apply.work o.builtinMark artifacts planned.changes paths).actAt s.tree = .ok between)
    (written : listAt o planned.packageNames between = .ok tree) :
    ∃ result, (run (m := StateM Memory) e d o s).1 = .ok result := by
  have same := ((brittle_prepare (e := e) (d := d) (o := o)) s).1
  have free' : ((prepare (m := StateM Memory) e d o).run s).2.rules = [] := by
    have calls := same.calls
    rw [free] at calls
    exact List.map_eq_nil_iff.mp calls
  have acts := Apply.acts_work (Apply.work o.builtinMark artifacts planned.changes paths)
  obtain ⟨free'', done⟩ := acts.complete _ free'
  have ok := done between (same.tree.symm ▸ worked)
  have left := acts.sound _ ok
  rw [same.tree, worked] at left
  rw [run_of_ok prepared, if_neg (by simp [wet])]
  simp only [finish, run_bind, Apply.run_apply destined]
  cases ran : ((Apply.work o.builtinMark artifacts planned.changes paths).run (m := StateM Memory)).run
      ((prepare (m := StateM Memory) e d o).run s).2 with
  | mk first s' =>
    rw [ran] at ok left free''
    cases ok
    cases left
    exact ⟨_, writeIgnoreList_of_free free'' written⟩

end Build
end Apportion
