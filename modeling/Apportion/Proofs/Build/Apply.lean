import Apportion.Build
import Apportion.Proofs.Plan.Changes
import Apportion.Proofs.Workspace.Keeping

/-!
What carrying a plan out does to a workspace. Every file that is written is one of the plan's
(`target_mem_writes`), directories are made and removed at package roots only; an invariant that these
calls keep holds at every point where the work can stop (`keeps_work`), and after it is rolled back
(`keeps_rollBack`).
-/
namespace Apportion.Apply
open Memory

/-! ## Tasks -/

theorem mem_moves_of_get? {changes : ChangeSet} {paths : PathMap} {source target : Path}
    (destined : changes.destinations = .ok paths) (h : paths.get? source = some target) :
    target ∈ changes.writes := by
  obtain ⟨e, found, rfl⟩ := Option.map_eq_some_iff.mp h
  have mem := (PathMap.of_ofPairs destined).2.mem_iff.mp (List.mem_of_find?_eq_some found)
  exact List.mem_append_right _ (List.mem_map_of_mem mem)

theorem target_of_revisions {mark : String} {artifacts : List Artifact} {changes : ChangeSet}
    {paths : PathMap} {r : Revision} (h : r ∈ revisions mark artifacts changes paths) :
    paths.get? r.artifact.path = some r.target := by
  obtain ⟨a, -, e⟩ := List.mem_filterMap.mp h
  split at e
  · cases e
  · rename_i target found
    simp only at e
    split at e
    · cases e
    · cases e
      exact found

theorem target_of_ownedMap {artifacts : List Artifact} {paths : PathMap} {a map : Artifact}
    {path target : Path} (h : ownedMap artifacts paths a = some (path, map, target)) :
    paths.get? path = some target := by
  unfold ownedMap at h
  simp only [Option.bind_eq_bind, Option.bind_eq_some_iff, Option.pure_def, Option.some.injEq,
    Prod.mk.injEq] at h
  obtain ⟨path', -, map', -, target', found, rfl, -, rfl⟩ := h
  exact found

theorem target_copyTask (artifacts : List Artifact) (changes : ChangeSet) (source target : Path) :
    (copyTask artifacts changes source target).target = target := by
  unfold copyTask
  split <;> rfl

def Work.tasks (w : Work) : List Task := w.manifests ++ w.revisions ++ w.compositions ++ w.copies

/-- A task writes what the plan says is written. -/
theorem target_mem_writes {mark : String} {artifacts : List Artifact} {changes : ChangeSet}
    {paths : PathMap} (destined : changes.destinations = .ok paths) :
    ∀ t ∈ (work mark artifacts changes paths).tasks, t.target ∈ changes.writes := by
  intro t ht
  simp only [Work.tasks, work, List.mem_append, or_assoc] at ht
  rcases ht with ht | ht | ht | ht
  · obtain ⟨m, hm, rfl⟩ := List.mem_map.mp ht
    exact List.mem_append_left _ (List.mem_map_of_mem hm)
  · obtain ⟨r, hr, rfl⟩ := List.mem_map.mp ht
    exact mem_moves_of_get? destined (target_of_revisions hr)
  · obtain ⟨⟨r, path, map, target⟩, hr, rfl⟩ := List.mem_map.mp ht
    obtain ⟨r', -, owned⟩ := List.mem_filterMap.mp hr
    obtain ⟨⟨path', map', target'⟩, owned, e⟩ := Option.map_eq_some_iff.mp owned
    cases e
    exact mem_moves_of_get? destined (target_of_ownedMap owned)
  · obtain ⟨⟨source, target⟩, hm, rfl⟩ := List.mem_map.mp ht
    rw [target_copyTask]
    exact List.mem_append_right _ (List.mem_map_of_mem (List.mem_filter.mp hm).1)

/-! ## Runs -/

theorem run_attempt {α : Type} (op : StateM Memory (Except FsError α)) (s : Memory) :
    (attempt op).run s = ((op s).1.mapError .fs, (op s).2) := rfl

theorem run_replaceDirectory (path : Path) (s : Memory) :
    (replaceDirectory (m := StateM Memory) path).run s =
      if (s.tree.get? path.place).isSome = true then
        match (Workspace.removeDirectory (m := StateM Memory) path s).1 with
        | .ok _ => (attempt (Workspace.createDirectory (m := StateM Memory) path)).run
            (Workspace.removeDirectory (m := StateM Memory) path s).2
        | .error e => (.error (.fs e), (Workspace.removeDirectory (m := StateM Memory) path s).2)
      else (attempt (Workspace.createDirectory (m := StateM Memory) path)).run s := by
  have lifted : (liftM (Workspace.isPresent (m := StateM Memory) path) :
      ExceptT BuildError (StateM Memory) Bool).run s = (.ok (s.tree.get? path.place).isSome, s) := rfl
  simp only [replaceDirectory, run_bind_except, lifted]
  split
  · simp only [run_bind_except, run_attempt]
    cases (Workspace.removeDirectory (m := StateM Memory) path s).1 <;> rfl
  · rfl

/-! ## Invariants -/

section
variable {I : Memory → Prop} {roots : List Path}

theorem keeps_attempt {α : Type} {op : StateM Memory (Except FsError α)} (h : Keeps I op) :
    Keeps I (attempt op).run := h.map

theorem keeps_run {t : Task} (told : Told I)
    (write : ∀ text, Keeps I (Workspace.write (m := StateM Memory) t.target text)) :
    Keeps I (t.run (m := StateM Memory)).run := by
  refine .bind_except ?_ fun text => keeps_attempt (write text)
  cases t.supply with
  | known text => exact .pure _
  | stored source revise =>
    exact .bind_except (keeps_attempt (.of_reads told (brittle_read source))) fun text => .pure _

theorem keeps_runAll {tasks : List Task} (told : Told I)
    (write : ∀ t ∈ tasks, ∀ text, Keeps I (Workspace.write (m := StateM Memory) t.target text)) :
    Keeps I (runAll (m := StateM Memory) tasks).run := by
  induction tasks with
  | nil => exact .pure _
  | cons t rest ih =>
    refine .bind_except (keeps_run told (write t List.mem_cons_self)) fun _ => ?_
    exact ih fun t' ht => write t' (List.mem_cons_of_mem _ ht)

theorem keeps_replaceDirectory {path : Path}
    (remove : Keeps I (Workspace.removeDirectory (m := StateM Memory) path))
    (create : Keeps I (Workspace.createDirectory (m := StateM Memory) path)) :
    Keeps I (replaceDirectory (m := StateM Memory) path).run := by
  refine .bind_except (fun s h => h) fun present => ?_
  split
  · exact .bind_except (keeps_attempt remove) fun _ => keeps_attempt create
  · exact keeps_attempt create

theorem keeps_createDirectories
    (remove : ∀ path ∈ roots, Keeps I (Workspace.removeDirectory (m := StateM Memory) path))
    (create : ∀ path ∈ roots, Keeps I (Workspace.createDirectory (m := StateM Memory) path)) :
    Keeps I (createDirectories (m := StateM Memory) roots) := by
  induction roots with
  | nil => exact .pure _
  | cons path rest ih =>
    refine .bind (keeps_replaceDirectory (remove path List.mem_cons_self)
      (create path List.mem_cons_self)) fun first => .bind (ih ?_ ?_) fun later => .pure _
    · exact fun path' h => remove path' (List.mem_cons_of_mem _ h)
    · exact fun path' h => create path' (List.mem_cons_of_mem _ h)

def Work.write (w : Work) : ExceptT BuildError (StateM Memory) Unit := do
  runAll w.manifests
  runAll w.revisions
  runAll w.compositions
  runAll w.copies

theorem run_work (w : Work) (s : Memory) : (w.run (m := StateM Memory)).run s =
    match (createDirectories (m := StateM Memory) w.directories s).1 with
    | .ok _ => w.write.run (createDirectories (m := StateM Memory) w.directories s).2
    | .error e => (.error e, (createDirectories (m := StateM Memory) w.directories s).2) := by
  have first : (ExceptT.mk (createDirectories (m := StateM Memory) w.directories)).run s =
      createDirectories (m := StateM Memory) w.directories s := rfl
  rw [Work.run, run_bind_except, first]
  cases (createDirectories (m := StateM Memory) w.directories s).1 <;> rfl

theorem keeps_write {w : Work} (told : Told I)
    (write : ∀ t ∈ w.tasks, ∀ text, Keeps I (Workspace.write (m := StateM Memory) t.target text)) :
    Keeps I w.write.run := by
  have part {tasks : List Task} (sub : ∀ t ∈ tasks, t ∈ w.tasks) :
      Keeps I (runAll (m := StateM Memory) tasks).run :=
    keeps_runAll told fun t ht => write t (sub t ht)
  refine .bind_except (part fun t ht => by simp [Work.tasks, ht]) fun _ => ?_
  refine .bind_except (part fun t ht => by simp [Work.tasks, ht]) fun _ => ?_
  refine .bind_except (part fun t ht => by simp [Work.tasks, ht]) fun _ => ?_
  exact part fun t ht => by simp [Work.tasks, ht]

/-- An invariant that a plan's calls keep holds wherever carrying the plan out stops. -/
theorem keeps_work {w : Work} (told : Told I)
    (remove : ∀ path ∈ w.directories,
      Keeps I (Workspace.removeDirectory (m := StateM Memory) path))
    (create : ∀ path ∈ w.directories,
      Keeps I (Workspace.createDirectory (m := StateM Memory) path))
    (write : ∀ t ∈ w.tasks, ∀ text, Keeps I (Workspace.write (m := StateM Memory) t.target text)) :
    Keeps I (w.run (m := StateM Memory)).run :=
  .bind_except (keeps_createDirectories remove create) fun _ => keeps_write told write

theorem keeps_removeAll {onFailure : Path → FsError → Warning}
    (remove : ∀ path ∈ roots, Keeps I (Workspace.removeDirectory (m := StateM Memory) path)) :
    Keeps I (removeAll (m := StateM Memory) onFailure roots) := by
  induction roots with
  | nil => exact .pure _
  | cons path rest ih =>
    have later := ih fun path' h => remove path' (List.mem_cons_of_mem _ h)
    refine .bind (remove path List.mem_cons_self) fun removed => ?_
    cases removed with
    | ok _ => exact later
    | error e => exact .bind (.warn _) fun _ => later

theorem keeps_rollBack
    (remove : ∀ path ∈ roots, Keeps I (Workspace.removeDirectory (m := StateM Memory) path)) :
    Keeps I (rollBack (m := StateM Memory) roots) :=
  .bind (.warn _) fun _ => keeps_removeAll fun path h => remove path (List.mem_reverse.mp h)

theorem keeps_runOrRollBack {w : Work} (run : Keeps I (w.run (m := StateM Memory)).run)
    (remove : ∀ path ∈ w.directories,
      Keeps I (Workspace.removeDirectory (m := StateM Memory) path)) :
    Keeps I (w.runOrRollBack (m := StateM Memory)) := by
  refine .bind run fun result => ?_
  cases result with
  | ok _ => exact .pure _
  | error e => exact .bind (keeps_rollBack remove) fun _ => .pure _

end

end Apportion.Apply
