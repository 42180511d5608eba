import Apportion.Proofs.Build.Apply
import Apportion.Proofs.Build.Prepare
import Apportion.Settings

/-!
All or nothing. Whatever a build has done to the tree lies at its package roots, below them, or is a
directory on the way there (`Confined`), at every point where it can stop. Removing the roots then
leaves nothing of it but those directories (`restored_of_error`).
-/
namespace Apportion
open Memory

/-! ## What a build can have done -/

/-- A workspace that differs from a tree, if at all, at or below some roots, and by directories above
them. Package directories can be removed. -/
structure Confined (before : FileTree String) (roots : List Path) (s : Memory) : Prop where
  rooted : s.tree.Rooted
  removable : Call.removeDirectory ∉ s.rules.map (·.call)
  kept : ∀ k, (∀ root ∈ roots, ¬ root.place <+: k) → s.tree.file? k = before.file? k
  added : ∀ k, s.tree.isDirectory k = true →
    before.isDirectory k = true ∨ ∃ root ∈ roots, root.place <+: k ∨ k <+: root.place

namespace Confined
variable {before : FileTree String} {roots : List Path} {path : Path}

theorem told : Told (Confined before roots) := fun _ _ e calls h =>
  ⟨e ▸ h.rooted, calls ▸ h.removable, e ▸ h.kept, e ▸ h.added⟩

theorem keeps_write (text : String) (below : ∃ root ∈ roots, root.place <+: path.place) :
    Keeps (Confined before roots) (Workspace.write (m := StateM Memory) path text) := by
  refine keeps_update told fun s s' h calls ok => ?_
  obtain ⟨e, vacant, free⟩ := writeAt_eq_ok ok
  obtain ⟨root, hroot, below⟩ := below
  refine ⟨?_, calls ▸ h.removable, fun k outside => ?_, fun k hk => ?_⟩
  · rw [e]
    exact h.rooted.put vacant free text
  · have ne : k ≠ path.place := fun same => outside root hroot (same ▸ below)
    rw [e, FileTree.file?_put _ _ ne]
    exact h.kept k outside
  · rw [e] at hk
    rcases FileTree.isDirectory_put hk with hk | above
    · exact h.added k hk
    · exact .inr ⟨root, hroot, List.prefix_or_prefix_of_prefix below above⟩

theorem keeps_create (mem : path ∈ roots) :
    Keeps (Confined before roots) (Workspace.createDirectory (m := StateM Memory) path) := by
  refine keeps_update told fun s s' h calls ok => ?_
  obtain ⟨e, free⟩ := createAt_eq_ok ok
  refine ⟨?_, calls ▸ h.removable, fun k outside => ?_, fun k hk => ?_⟩
  · rw [e]
    exact h.rooted.mkdirs free
  · rw [e, FileTree.file?_mkdirs]
    exact h.kept k outside
  · rw [e] at hk
    rcases FileTree.isDirectory_mkdirs hk with hk | above
    · exact h.added k hk
    · exact .inr ⟨path, mem, .inr above⟩

theorem keeps_remove (mem : path ∈ roots) :
    Keeps (Confined before roots) (Workspace.removeDirectory (m := StateM Memory) path) := by
  refine keeps_update told fun s s' h calls ok => ?_
  have e := (removeAt_eq_ok ok).1
  refine ⟨?_, calls ▸ h.removable, fun k outside => ?_, fun k hk => ?_⟩
  · rw [e]
    exact h.rooted.remove path.place
  · rw [e, FileTree.file?_remove _ (outside path mem)]
    exact h.kept k outside
  · rw [e] at hk
    exact h.added k (FileTree.isDirectory_remove hk).1

end Confined

/-! ## Removing the roots -/

/-- What is no directory stays none when directories are removed. -/
theorem keeps_vacant (k : Key) (path : Path) : Keeps (fun s => s.tree.isDirectory k = false)
    (Workspace.removeDirectory (m := StateM Memory) path) := by
  refine keeps_update (fun s s' e _ h => e ▸ h) fun s s' h _ ok => ?_
  rw [(removeAt_eq_ok ok).1, ← Bool.not_eq_true]
  intro hk
  rw [(FileTree.isDirectory_remove hk).1] at h
  cases h

/-- Where directories can be removed, one that was to be removed is gone. -/
theorem vacant_of_remove {s : Memory} {path : Path}
    (removable : Call.removeDirectory ∉ s.rules.map (·.call)) (proper : path.place ≠ []) :
    (Workspace.removeDirectory (m := StateM Memory) path s).2.tree.isDirectory path.place = false := by
  obtain ⟨-, ⟨tree, ok, -, e⟩ | ⟨cause, -, e, failed⟩⟩ :=
    update_cases .removeDirectory path (fun tree => removeAt tree path) s
  · refine Bool.eq_false_iff.mpr fun hk => ?_
    rw [show (Workspace.removeDirectory (m := StateM Memory) path s).2.tree = tree from e,
      (removeAt_eq_ok ok).1] at hk
    rcases (FileTree.isDirectory_remove hk).2 with nil | outside
    · exact proper nil
    · exact outside (List.prefix_refl _)
  · rcases failed with absent | ⟨r, hr, call⟩
    · refine Bool.eq_false_iff.mpr fun hk => ?_
      rw [show (Workspace.removeDirectory (m := StateM Memory) path s).2.tree = s.tree from e] at hk
      simp [removeAt, hk] at absent
    · exact absurd (call ▸ List.mem_map_of_mem hr) removable

/-- What each step of a loop over paths clears for good is clear in the end. -/
theorem vacant_of_foldl {step : Memory → Path → Memory} {roots : List Path} {s : Memory}
    (calls : ∀ s path, (step s path).rules.map (·.call) = s.rules.map (·.call))
    (stays : ∀ k s path, s.tree.isDirectory k = false → (step s path).tree.isDirectory k = false)
    (gone : ∀ s, Call.removeDirectory ∉ s.rules.map (·.call) → ∀ path ∈ roots,
      (step s path).tree.isDirectory path.place = false)
    (removable : Call.removeDirectory ∉ s.rules.map (·.call)) :
    ∀ root ∈ roots, (roots.foldl step s).tree.isDirectory root.place = false := by
  induction roots generalizing s with
  | nil => simp
  | cons path rest ih =>
    intro root hroot
    rw [List.foldl_cons]
    rcases List.mem_cons.mp hroot with rfl | hroot
    · have own := gone s removable root List.mem_cons_self
      exact List.foldlRecOn rest step own fun s h path _ => stays _ s path h
    · have next := fun s h path hp => gone s h path (List.mem_cons_of_mem _ hp)
      exact ih next (by rwa [calls]) root hroot

theorem Apply.snd_removeAll (onFailure : Path → FsError → Warning) (roots : List Path) (s : Memory) :
    (removeAll (m := StateM Memory) onFailure roots s).2 =
      roots.foldl (fun s path => (Workspace.removeDirectory (m := StateM Memory) path s).2) s := by
  induction roots generalizing s with
  | nil => rfl
  | cons path rest ih =>
    rw [List.foldl_cons, ← ih]
    simp only [removeAll, run_bind]
    cases (Workspace.removeDirectory (m := StateM Memory) path s).1 <;> rfl

/-- After the directories were removed in turn, none of them is there. -/
theorem Apply.vacant_of_removeAll {onFailure : Path → FsError → Warning} {roots : List Path}
    {s : Memory} (removable : Call.removeDirectory ∉ s.rules.map (·.call))
    (proper : ∀ root ∈ roots, root.place ≠ []) : ∀ root ∈ roots,
      (removeAll (m := StateM Memory) onFailure roots s).2.tree.isDirectory root.place = false := by
  rw [snd_removeAll]
  refine vacant_of_foldl (fun s path => ?_) (fun k s path => keeps_vacant k path s) ?_ removable
  · exact (update_cases .removeDirectory path (fun tree => removeAt tree path) s).1
  · exact fun s removable path hp => vacant_of_remove removable (proper path hp)

def Build.clear (s : Memory) (path : Path) : Memory :=
  if (s.tree.get? path.place).isSome = true then
    (Workspace.removeDirectory (m := StateM Memory) path s).2
  else s

theorem Build.snd_removePresent (roots : List Path) (s : Memory) :
    (removePresent (m := StateM Memory) roots s).2 = roots.foldl clear s := by
  induction roots generalizing s with
  | nil => rfl
  | cons path rest ih =>
    rw [List.foldl_cons, ← ih]
    simp only [removePresent, run_bind, run_isPresent, clear]
    split
    · simp only [run_bind]
      cases (Workspace.removeDirectory (m := StateM Memory) path s).1 <;> rfl
    · rfl

theorem Build.keeps_clear {I : Memory → Prop} {path : Path} {s : Memory}
    (remove : Keeps I (Workspace.removeDirectory (m := StateM Memory) path)) (h : I s) :
    I (clear s path) := by
  unfold clear
  split
  · exact remove s h
  · exact h

theorem Build.keeps_removePresent {I : Memory → Prop} {roots : List Path}
    (remove : ∀ path ∈ roots, Keeps I (Workspace.removeDirectory (m := StateM Memory) path)) :
    Keeps I (removePresent (m := StateM Memory) roots) := by
  intro s h
  rw [snd_removePresent]
  exact List.foldlRecOn roots clear h fun s h path hp => keeps_clear (remove path hp) h

theorem Build.vacant_of_clear {path : Path} {s : Memory}
    (removable : Call.removeDirectory ∉ s.rules.map (·.call)) (proper : path.place ≠ []) :
    (clear s path).tree.isDirectory path.place = false := by
  unfold clear
  split
  · exact vacant_of_remove removable proper
  · rename_i absent
    rw [FileTree.isDirectory, Option.not_isSome_iff_eq_none.mp absent]

/-- After the directories that are there were removed in turn, none of them is there. -/
theorem Build.vacant_of_removePresent {roots : List Path} {s : Memory}
    (removable : Call.removeDirectory ∉ s.rules.map (·.call))
    (proper : ∀ root ∈ roots, root.place ≠ []) : ∀ root ∈ roots,
      (removePresent (m := StateM Memory) roots s).2.tree.isDirectory root.place = false := by
  rw [snd_removePresent]
  refine vacant_of_foldl (fun s path => ?_) (fun k s path => keeps_clear (keeps_vacant k path)) ?_
    removable
  · unfold clear
    split
    · exact (update_cases .removeDirectory path (fun tree => removeAt tree path) s).1
    · rfl
  · exact fun s removable path hp => vacant_of_clear removable (proper path hp)

/-! ## All or nothing -/

/-- What a failed build leaves of a tree: no package directory and nothing below one; every file
elsewhere as it was; and no new directories but those above package directories. -/
structure Restored (before after : FileTree String) (roots : List Path) : Prop where
  cleared : ∀ root ∈ roots, after.isDirectory root.place = false ∧
    ∀ k, root.place <+: k → k ≠ root.place → after.get? k = none
  kept : ∀ k, (∀ root ∈ roots, ¬ root.place <+: k) → after.file? k = before.file? k
  added : ∀ k, after.isDirectory k = true →
    before.isDirectory k = true ∨ ∃ root ∈ roots, k <+: root.place ∧ k ≠ root.place

theorem Confined.restored {before : FileTree String} {roots : List Path} {s : Memory}
    (h : Confined before roots s)
    (vacant : ∀ root ∈ roots, s.tree.isDirectory root.place = false) :
    Restored before s.tree roots := by
  refine ⟨fun root hr => ⟨vacant root hr, fun k => ?_⟩, h.kept, fun k hk => ?_⟩
  · exact h.rooted.get?_below (vacant root hr)
  · refine (h.added k hk).imp_right ?_
    rintro ⟨root, hr, near⟩
    have ne : k ≠ root.place := by
      rintro rfl
      rw [vacant root hr] at hk
      cases hk
    refine ⟨root, hr, near.resolve_left fun below => ?_, ne⟩
    rw [FileTree.isDirectory, h.rooted.get?_below (vacant root hr) below ne] at hk
    cases hk

theorem Confined.of_wellFormed {s : Memory} (tree : s.tree.WellFormed)
    (removable : ∀ r ∈ s.rules, r.call ≠ .removeDirectory) (roots : List Path) :
    Confined s.tree roots s := by
  refine ⟨tree.rooted, fun mem => ?_, fun k _ => rfl, fun k => .inl⟩
  obtain ⟨r, hr, e⟩ := List.mem_map.mp mem
  exact removable r hr e

section
variable {mark : String} {artifacts : List Artifact} {changes : ChangeSet} {paths : PathMap}
  {before : FileTree String}

theorem Apply.keeps_confined_work (mark : String) (artifacts : List Artifact)
    (contained : changes.Contained) (destined : changes.destinations = .ok paths) :
    Keeps (Confined before changes.directories)
      ((work mark artifacts changes paths).run (m := StateM Memory)).run :=
  keeps_work Confined.told (fun _ => Confined.keeps_remove) (fun _ => Confined.keeps_create)
    fun t ht text => Confined.keeps_write text (contained.below _ (target_mem_writes destined t ht))

theorem Apply.keeps_confined (mark : String) (artifacts : List Artifact)
    (contained : changes.Contained) :
    Keeps (Confined before changes.directories) (apply (m := StateM Memory) mark artifacts changes) := by
  obtain ⟨paths, destined⟩ := contained.destined
  simp only [apply, destined]
  exact keeps_runOrRollBack (keeps_confined_work mark artifacts contained destined) fun _ =>
    Confined.keeps_remove

theorem Apply.restored_of_error {s : Memory} (contained : changes.Contained)
    (proper : ∀ root ∈ changes.directories, root.place ≠ [])
    (confined : Confined before changes.directories s) {cause : BuildError}
    (h : (apply (m := StateM Memory) mark artifacts changes s).1 = .error cause) :
    Restored before (apply (m := StateM Memory) mark artifacts changes s).2.tree
      changes.directories := by
  obtain ⟨paths, destined⟩ := contained.destined
  simp only [apply, destined, Work.runOrRollBack, run_bind] at h ⊢
  have stopped := keeps_confined_work mark artifacts contained destined s confined
  cases result : ((work mark artifacts changes paths).run (m := StateM Memory) |>.run s).1 with
  | ok _ =>
    rw [result] at h
    cases h
  | error e =>
    simp only [run_bind]
    have removed := keeps_rollBack (fun _ => Confined.keeps_remove) _ stopped
    refine removed.restored fun root hr => ?_
    exact vacant_of_removeAll stopped.removable (fun r hr => proper r (List.mem_reverse.mp hr)) root
      (List.mem_reverse.mpr hr)

end

theorem IgnoreList.told_of_error {I : Memory → Prop} (told : Told I) {root : Path}
    {location : Location} {names : List String} {s : Memory} {cause : FsError}
    (h : (write (m := StateM Memory) root location names s).1 = .error cause) (holds : I s) :
    I (write (m := StateM Memory) root location names s).2 := by
  have failed {path : Path} {text : String} {s : Memory}
      (h : (Workspace.write (m := StateM Memory) path text s).1.map (fun _ => path) = .error cause)
      (holds : I s) : I (Workspace.write (m := StateM Memory) path text s).2 := by
    obtain ⟨calls, ⟨tree, -, ok, -⟩ | ⟨-, -, e, -⟩⟩ :=
      update_cases .write path (fun tree => writeAt tree path text) s
    · rw [show (Workspace.write (m := StateM Memory) path text s).1 = .ok () from ok] at h
      cases h
    · exact told s _ e calls holds
  simp only [write, run_bind, run_isPresent] at h ⊢
  by_cases present : (s.tree.get? (root.join location.template).place).isSome = true
  · have read := (brittle_read (root.join location.template) s).1
    simp only [present, ↓reduceIte, run_bind] at h ⊢
    cases text : (Workspace.read (m := StateM Memory) (root.join location.template) s).1 with
    | error e => exact told s _ read.tree read.calls holds
    | ok template =>
      rw [text] at h
      exact failed h (told s _ read.tree read.calls holds)
  · simp only [present] at h ⊢
    exact failed h holds

namespace Build
variable {e : Emitter} {d : Discovery} {o : BuildOptions} {s : Memory}

theorem restored_of_writeIgnoreList {result : BuildResult} {before : FileTree String}
    (proper : ∀ root ∈ result.packages.map (·.directory), root.place ≠ [])
    (confined : Confined before (result.packages.map (·.directory)) s) {cause : BuildError}
    (h : (writeIgnoreList (m := StateM Memory) o result s).1 = .error cause) :
    Restored before (writeIgnoreList (m := StateM Memory) o result s).2.tree
      (result.packages.map (·.directory)) := by
  unfold writeIgnoreList at h ⊢
  cases ignore : o.ignore with
  | none =>
    rw [ignore] at h
    cases h
  | some location =>
    simp only [ignore, run_bind] at h ⊢
    cases written : (IgnoreList.write (m := StateM Memory) o.projectRoot location
        result.packageNames s).1 with
    | ok path =>
      rw [written] at h
      cases h
    | error e =>
      have failed := IgnoreList.told_of_error Confined.told written confined
      have keeps : Keeps (Confined before (result.packages.map (·.directory)))
          (removePackages (m := StateM Memory) result) :=
        keeps_removePresent fun path hp => Confined.keeps_remove (List.mem_reverse.mp hp)
      have removed := keeps _ failed
      refine removed.restored fun root hr => ?_
      exact vacant_of_removePresent failed.removable
        (fun r hr => proper r (List.mem_reverse.mp hr)) root (List.mem_reverse.mpr hr)

/-- A build that fails after planning is rolled back, also if only the ignore list fails. -/
theorem restored_of_error {artifacts : List Artifact} {result : BuildResult}
    {before : FileTree String} (contained : result.changes.Contained)
    (directories : result.packages.map (·.directory) = result.changes.directories)
    (proper : ∀ root ∈ result.changes.directories, root.place ≠ [])
    (confined : Confined before result.changes.directories s) {cause : BuildError}
    (h : (finish (m := StateM Memory) o artifacts result s).1 = .error cause) :
    Restored before (finish (m := StateM Memory) o artifacts result s).2.tree
      result.changes.directories := by
  simp only [finish, run_bind] at h ⊢
  cases applied : (Apply.apply (m := StateM Memory) o.builtinMark artifacts result.changes s).1 with
  | error e => exact Apply.restored_of_error contained proper confined applied
  | ok summary =>
    rw [applied] at h
    have done := Apply.keeps_confined o.builtinMark artifacts contained s confined
    rw [← directories] at proper done ⊢
    refine restored_of_writeIgnoreList ?_ ?_ h
    · exact proper
    · exact done

/-! ## Builds -/

def plannedRoots (e : Emitter) (d : Discovery) (o : BuildOptions) (s : Memory) : Option (List Path) :=
  match ((prepare (m := StateM Memory) e d o).run s).1 with
  | .ok (_, result) => some result.changes.directories
  | .error _ => none

theorem run_of_error {cause : BuildError}
    (h : ((prepare (m := StateM Memory) e d o).run s).1 = .error cause) :
    run (m := StateM Memory) e d o s =
      (.error cause, ((prepare (m := StateM Memory) e d o).run s).2) := by
  simp only [run, run_bind, h, run_pure]

theorem run_of_ok {artifacts : List Artifact} {result : BuildResult}
    (h : ((prepare (m := StateM Memory) e d o).run s).1 = .ok (artifacts, result)) :
    run (m := StateM Memory) e d o s =
      if o.dryRun then (.ok result, ((prepare (m := StateM Memory) e d o).run s).2)
      else finish (m := StateM Memory) o artifacts result
        ((prepare (m := StateM Memory) e d o).run s).2 := by
  simp only [run, run_bind, h]
  by_cases assigned : (!result.unassigned.isEmpty) = true
  · simp only [assigned, ↓reduceIte, run_bind]
    cases o.dryRun <;> rfl
  · simp only [assigned]
    cases o.dryRun <;> rfl

/-- A build does all or nothing. A dry run, or a build that fails before it has a plan, leaves the
tree as it was; if it fails later, no package is left and nothing else is changed. -/
theorem run_all_or_nothing (e : Emitter) (d : Discovery) (o : BuildOptions) (s : Memory)
    (tree : s.tree.WellFormed) (removable : ∀ r ∈ s.rules, r.call ≠ .removeDirectory)
    (plain : IsName o.manifestName)
    (proper : ∀ roots, plannedRoots e d o s = some roots → ∀ root ∈ roots, root.place ≠ []) :
    (o.dryRun = true ∨ plannedRoots e d o s = none →
      (run (m := StateM Memory) e d o s).2.tree = s.tree) ∧
    ∀ roots cause, o.dryRun = false → plannedRoots e d o s = some roots →
      (run (m := StateM Memory) e d o s).1 = .error cause →
      Restored s.tree (run (m := StateM Memory) e d o s).2.tree roots := by
  have same := ((brittle_prepare (e := e) (d := d) (o := o)) s).1
  cases prepared : ((prepare (m := StateM Memory) e d o).run s).1 with
  | error cause =>
    have none : plannedRoots e d o s = none := by simp only [plannedRoots, prepared]
    rw [run_of_error prepared, none]
    exact ⟨fun _ => same.tree, fun roots cause _ h => by cases h⟩
  | ok made =>
    obtain ⟨artifacts, result⟩ := made
    have some : plannedRoots e d o s = some result.changes.directories := by
      simp only [plannedRoots, prepared]
    obtain ⟨contained, directories⟩ := contained_of_prepare tree plain prepared
    rw [run_of_ok prepared, some]
    refine ⟨fun h => ?_, fun roots cause wet planned h => ?_⟩
    · rw [if_pos (h.resolve_right (by simp))]
      exact same.tree
    · cases planned
      rw [if_neg (by simp [wet])] at h ⊢
      have confined : Confined s.tree result.changes.directories
          ((prepare (m := StateM Memory) e d o).run s).2 :=
        Confined.told s _ same.tree same.calls (.of_wellFormed tree removable _)
      exact restored_of_error contained directories (proper _ some) confined h

/-- A project with one emitted module, whose ignore list cannot be written. -/
def lockedProject : Memory where
  tree := ⟨[(["p"], .directory), (["p", ".gitignore"], .file "node_modules"),
    (["p", "build"], .directory), (["p", "build", "esm"], .directory),
    (["p", "build", "esm", "lib"], .directory),
    (["p", "build", "esm", "lib", "a.js"], .file "export const a = 1;"),
    (["p", "build", "emit-report.json"], .file "\x7b\"artifacts\":[\x7b\"path\":\"lib/a.js\"\x7d]\x7d")]⟩
  rules := [⟨.write, ["p", ".gitignore"], false, 0, .permissionDenied⟩]
  log := []

theorem run_all_or_nothing_locked : lockedProject.tree.WellFormed ∧
    (∀ r ∈ lockedProject.rules, r.call ≠ .removeDirectory) ∧
    IsName (Settings.standard.options ⟨"/p"⟩).manifestName ∧
    ∃ roots cause,
      plannedRoots (Settings.standard.emitter ⟨"/p"⟩) Settings.standard.discovery
        (Settings.standard.options ⟨"/p"⟩) lockedProject = some roots ∧
      (∀ root ∈ roots, root.place ≠ []) ∧
      (run (m := StateM Memory) (Settings.standard.emitter ⟨"/p"⟩) Settings.standard.discovery
        (Settings.standard.options ⟨"/p"⟩) lockedProject).1 = .error cause ∧
      Restored lockedProject.tree (run (m := StateM Memory) (Settings.standard.emitter ⟨"/p"⟩)
        Settings.standard.discovery (Settings.standard.options ⟨"/p"⟩) lockedProject).2.tree roots := by
  have tree : lockedProject.tree.WellFormed :=
    FileTree.wellFormed_of_entries (by decide +kernel) (by decide +kernel)
  have removable : ∀ r ∈ lockedProject.rules, r.call ≠ .removeDirectory := by decide +kernel
  have plain : IsName (Settings.standard.options ⟨"/p"⟩).manifestName := by decide +kernel
  have below : (plannedRoots (Settings.standard.emitter ⟨"/p"⟩) Settings.standard.discovery
      (Settings.standard.options ⟨"/p"⟩) lockedProject).any (·.all (·.place != [])) = true := by
    decide +kernel
  have fails : (run (m := StateM Memory) (Settings.standard.emitter ⟨"/p"⟩)
      Settings.standard.discovery (Settings.standard.options ⟨"/p"⟩)
      lockedProject).1.toOption.isNone = true := by decide +kernel
  obtain ⟨roots, planned, places⟩ := (Option.any_eq_true _ _).mp below
  have proper : ∀ roots, plannedRoots (Settings.standard.emitter ⟨"/p"⟩) Settings.standard.discovery
      (Settings.standard.options ⟨"/p"⟩) lockedProject = some roots →
      ∀ root ∈ roots, root.place ≠ [] := by
    intro roots' planned' root hr
    cases planned.symm.trans planned'
    simpa using List.all_eq_true.mp places root hr
  cases failed : (run (m := StateM Memory) (Settings.standard.emitter ⟨"/p"⟩)
      Settings.standard.discovery (Settings.standard.options ⟨"/p"⟩) lockedProject).1 with
  | ok result =>
    rw [failed] at fails
    cases fails
  | error cause =>
    refine ⟨tree, removable, plain, roots, cause, planned, proper roots planned, rfl, ?_⟩
    exact (run_all_or_nothing _ _ _ lockedProject tree removable plain proper).2 roots cause
      (by decide +kernel) planned failed

end Build
end Apportion
