import Apportion.Proofs.Build.Rollback

/-!
The emitted tree is only read, as far as package roots keep away from it. Whatever fails, a build keeps
every emitted file that lies below none of its package roots; below one, there is a way to fail that
loses the file (`emitted_kept_iff`).
-/
namespace Apportion
open Memory

/-! ## A file that stays -/

section
variable {k : Key} {content : String} {path : Path}

theorem keeps_file_write (ne : path.place ≠ k) (text : String) :
    Keeps (fun s => s.tree.file? k = some content)
      (Workspace.write (m := StateM Memory) path text) := by
  refine keeps_update (fun s s' e _ h => e ▸ h) fun s s' h _ ok => ?_
  rw [(writeAt_eq_ok ok).1, FileTree.file?_put _ _ (Ne.symm ne)]
  exact h

theorem keeps_file_create (path : Path) : Keeps (fun s => s.tree.file? k = some content)
    (Workspace.createDirectory (m := StateM Memory) path) := by
  refine keeps_update (fun s s' e _ h => e ▸ h) fun s s' h _ ok => ?_
  rw [(createAt_eq_ok ok).1, FileTree.file?_mkdirs]
  exact h

/-- A file is no directory to be removed, even where a directory was to be. -/
theorem keeps_file_remove (above : path.place <+: k → path.place = k) :
    Keeps (fun s => s.tree.file? k = some content)
      (Workspace.removeDirectory (m := StateM Memory) path) := by
  refine keeps_update (fun s s' e _ h => e ▸ h) fun s s' h _ ok => ?_
  obtain ⟨e, directory⟩ := removeAt_eq_ok ok
  have outside : ¬ path.place <+: k := by
    intro hk
    rw [above hk, FileTree.isDirectory_iff, FileTree.file?_eq_some.mp h] at directory
    cases directory
  rw [e, FileTree.file?_remove _ outside]
  exact h

end

namespace Apply
variable {k : Key} {content : String} {roots : List Path} {s : Memory}

theorem createDirectories_of_error {path : Path} {rest : List Path} {cause : BuildError}
    (h : ((replaceDirectory (m := StateM Memory) path).run s).1 = .error cause) :
    (createDirectories (m := StateM Memory) (path :: rest) s).1 = .error cause := by
  simp only [createDirectories, run_bind, run_pure, h]

theorem createDirectories_of_later {path : Path} {rest : List Path} {cause : BuildError}
    (h : (createDirectories (m := StateM Memory) rest
      ((replaceDirectory (m := StateM Memory) path).run s).2).1 = .error cause) :
    ∃ cause, (createDirectories (m := StateM Memory) (path :: rest) s).1 = .error cause := by
  simp only [createDirectories, run_bind, run_pure, h]
  cases ((replaceDirectory (m := StateM Memory) path).run s).1 with
  | error e => exact ⟨e, rfl⟩
  | ok _ => exact ⟨cause, rfl⟩

/-- Where a file stands, no package can be made. -/
theorem replaceDirectory_of_file {path : Path} (h : s.tree.file? path.place = some content) :
    ∃ cause, ((replaceDirectory (m := StateM Memory) path).run s).1 = .error cause := by
  have node := FileTree.file?_eq_some.mp h
  have failed : ∃ e, (Workspace.removeDirectory (m := StateM Memory) path s).1 = .error e := by
    obtain ⟨-, ⟨tree, ok, -, -⟩ | ⟨e, failed, -, -⟩⟩ :=
      update_cases .removeDirectory path (fun tree => removeAt tree path) s
    · have directory := FileTree.isDirectory_iff.mp (removeAt_eq_ok ok).2
      rw [node] at directory
      cases directory
    · exact ⟨e, failed⟩
  obtain ⟨e, failed⟩ := failed
  rw [run_replaceDirectory, if_pos (by rw [node]; rfl), failed]
  exact ⟨_, rfl⟩

theorem createDirectories_of_file (above : ∀ root ∈ roots, root.place <+: k → root.place = k)
    (blocked : ∃ root ∈ roots, root.place = k) (h : s.tree.file? k = some content) :
    ∃ cause, (createDirectories (m := StateM Memory) roots s).1 = .error cause := by
  induction roots generalizing s with
  | nil =>
    obtain ⟨root, hr, -⟩ := blocked
    cases hr
  | cons path rest ih =>
    by_cases here : path.place = k
    · obtain ⟨cause, failed⟩ := replaceDirectory_of_file (here ▸ h)
      exact ⟨cause, createDirectories_of_error failed⟩
    · obtain ⟨root, hr, there⟩ := blocked
      have later : ∃ root ∈ rest, root.place = k := by
        rcases List.mem_cons.mp hr with rfl | hr
        · exact absurd there here
        · exact ⟨root, hr, there⟩
      have stays := keeps_replaceDirectory (keeps_file_remove (above path List.mem_cons_self))
        (keeps_file_create path) s h
      obtain ⟨cause, failed⟩ := ih (fun r hr => above r (List.mem_cons_of_mem _ hr)) later stays
      exact createDirectories_of_later failed

theorem run_work_of_error {w : Work} {cause : BuildError}
    (h : (createDirectories (m := StateM Memory) w.directories s).1 = .error cause) :
    (w.run (m := StateM Memory)).run s =
      (.error cause, (createDirectories (m := StateM Memory) w.directories s).2) := by
  rw [run_work, h]

/-- A file stays as long as no root lies above it: if a root lies where the file is, nothing is ever
written. -/
theorem keeps_file {mark : String} {artifacts : List Artifact} {changes : ChangeSet}
    (contained : changes.Contained)
    (above : ∀ root ∈ changes.directories, root.place <+: k → root.place = k) :
    Keeps (fun s => s.tree.file? k = some content)
      (apply (m := StateM Memory) mark artifacts changes) := by
  obtain ⟨paths, destined⟩ := contained.destined
  simp only [apply, destined]
  have remove : ∀ path ∈ changes.directories, Keeps (fun s => s.tree.file? k = some content)
      (Workspace.removeDirectory (m := StateM Memory) path) := fun path hp =>
    keeps_file_remove (above path hp)
  by_cases blocked : ∃ root ∈ changes.directories, root.place = k
  · intro s h
    obtain ⟨cause, failed⟩ := createDirectories_of_file above blocked h
    have stays := keeps_createDirectories remove (fun path _ => keeps_file_create path) s h
    have stopped := run_work_of_error (w := work mark artifacts changes paths) failed
    simp only [Work.runOrRollBack, run_bind, stopped]
    exact keeps_rollBack remove _ stays
  · refine keeps_runOrRollBack (keeps_work (fun s s' e _ h => e ▸ h) remove
      (fun path _ => keeps_file_create path) fun t ht text => keeps_file_write (fun e => ?_) text) remove
    obtain ⟨root, hr, below⟩ := contained.below _ (target_mem_writes destined t ht)
    exact blocked ⟨root, hr, above root hr (e ▸ below)⟩

end Apply

/-! ## A way to lose a file -/

/-- No directory can be made anywhere. -/
def noDirectories : FailureRule := ⟨.createDirectory, [], true, 0, .permissionDenied⟩

/-- A workspace in which directories can be removed, but never be made. -/
structure Barred (s : Memory) : Prop where
  rules : s.rules = [noDirectories]
  rooted : s.tree.Rooted

namespace Barred
variable {k : Key} {path : Path} {roots : List Path} {s : Memory}

theorem of_same {s' : Memory} (h : Barred s) (same : Same s s') : Barred s' := by
  refine ⟨?_, same.tree ▸ h.rooted⟩
  have all := same.calls
  have one := same.others .createDirectory (by simp) (by simp)
  rw [h.rules] at all one
  obtain ⟨r, rest, e, call, nil⟩ := List.map_eq_cons_iff.mp all
  rw [List.map_eq_nil_iff.mp nil] at e
  rw [e] at one ⊢
  simpa [List.filter_cons, call, noDirectories] using one

theorem create (h : Barred s) (path : Path) :
    (∃ cause, (Workspace.createDirectory (m := StateM Memory) path s).1 = .error cause) ∧
    (Workspace.createDirectory (m := StateM Memory) path s).2.tree = s.tree ∧
    (Workspace.createDirectory (m := StateM Memory) path s).2.rules = [noDirectories] := by
  have hit : noDirectories.hits .createDirectory path.place = true := by
    simp [FailureRule.hits, noDirectories]
  have consulted := FailureRule.consult_cons_of_hits hit rfl []
  rw [← h.rules] at consulted
  show (∃ cause, (update .createDirectory path _ s).1 = .error cause) ∧
    (update .createDirectory path _ s).2.tree = s.tree ∧
    (update .createDirectory path _ s).2.rules = [noDirectories]
  unfold update
  rw [consulted]
  exact ⟨⟨_, rfl⟩, rfl, h.rules⟩

theorem rules_remove (h : Barred s) (path : Path) :
    (Workspace.removeDirectory (m := StateM Memory) path s).2.rules = [noDirectories] := by
  have rules := rules_update .removeDirectory path (fun tree => removeAt tree path) s
  rw [h.rules] at rules
  exact rules

theorem keeps_remove (path : Path) :
    Keeps Barred (Workspace.removeDirectory (m := StateM Memory) path) := by
  intro s h
  refine ⟨h.rules_remove path, ?_⟩
  obtain ⟨-, ⟨tree, ok, -, e⟩ | ⟨-, -, e, -⟩⟩ :=
    update_cases .removeDirectory path (fun tree => removeAt tree path) s
  · exact e ▸ (removeAt_eq_ok ok).1 ▸ h.rooted.remove path.place
  · exact e ▸ h.rooted

theorem keeps_create (path : Path) :
    Keeps Barred (Workspace.createDirectory (m := StateM Memory) path) := fun _ h =>
  ⟨(h.create path).2.2, (h.create path).2.1 ▸ h.rooted⟩

theorem file?_remove (h : Barred s) (below : path.place <+: k) (ne : k ≠ path.place) :
    (Workspace.removeDirectory (m := StateM Memory) path s).2.tree.file? k = none := by
  have nil : k ≠ [] := by
    rintro rfl
    exact ne (List.prefix_nil.mp below).symm
  obtain ⟨-, ⟨tree, ok, -, e⟩ | ⟨cause, -, e, failed⟩⟩ :=
    update_cases .removeDirectory path (fun tree => removeAt tree path) s
  · have gone : (s.tree.remove path.place).get? k = none := by
      rw [FileTree.get?_remove, if_neg nil, if_pos below]
    exact e ▸ (removeAt_eq_ok ok).1 ▸ by rw [FileTree.file?, gone]
  · rcases failed with absent | ⟨r, hr, call⟩
    · have vacant : s.tree.isDirectory path.place = false := by
        refine Bool.eq_false_iff.mpr fun directory => ?_
        simp [removeAt, directory] at absent
      exact e ▸ by rw [FileTree.file?, h.rooted.get?_below vacant below ne]
    · rw [h.rules, List.mem_singleton] at hr
      rw [hr] at call
      cases call

theorem keeps_lost_remove (path : Path) : Keeps (fun s => Barred s ∧ s.tree.file? k = none)
    (Workspace.removeDirectory (m := StateM Memory) path) := by
  intro s h
  refine ⟨keeps_remove path s h.1, ?_⟩
  obtain ⟨-, ⟨tree, ok, -, e⟩ | ⟨-, -, e, -⟩⟩ :=
    update_cases .removeDirectory path (fun tree => removeAt tree path) s
  · exact e ▸ (removeAt_eq_ok ok).1 ▸ FileTree.file?_remove_eq_none h.2 path.place
  · exact e ▸ h.2

theorem keeps_lost_create (path : Path) : Keeps (fun s => Barred s ∧ s.tree.file? k = none)
    (Workspace.createDirectory (m := StateM Memory) path) := fun s h =>
  ⟨keeps_create path s h.1, (h.1.create path).2.1 ▸ h.2⟩

theorem replaceDirectory_error (h : Barred s) (path : Path) :
    ∃ cause, ((Apply.replaceDirectory (m := StateM Memory) path).run s).1 = .error cause := by
  rw [Apply.run_replaceDirectory]
  split
  · split
    · obtain ⟨⟨cause, failed⟩, -, -⟩ := (keeps_remove path s h).create path
      rw [Apply.run_attempt, failed]
      exact ⟨_, rfl⟩
    · exact ⟨_, rfl⟩
  · obtain ⟨⟨cause, failed⟩, -, -⟩ := h.create path
    rw [Apply.run_attempt, failed]
    exact ⟨_, rfl⟩

/-- Where a package cannot be made, what was there is lost all the same. -/
theorem file?_replaceDirectory (h : Barred s) (below : path.place <+: k) (ne : k ≠ path.place) :
    ((Apply.replaceDirectory (m := StateM Memory) path).run s).2.tree.file? k = none := by
  have lost := h.file?_remove below ne
  rw [Apply.run_replaceDirectory]
  split
  · split
    · rw [Apply.run_attempt, ((keeps_remove path s h).create path).2.1]
      exact lost
    · exact lost
  · rename_i absent
    have vacant : s.tree.isDirectory path.place = false := by
      rw [FileTree.isDirectory, Option.not_isSome_iff_eq_none.mp absent]
    rw [Apply.run_attempt, (h.create path).2.1, FileTree.file?, h.rooted.get?_below vacant below ne]

theorem createDirectories (h : Barred s)
    (hit : ∃ root ∈ roots, root.place <+: k ∧ k ≠ root.place) :
    (∃ cause, (Apply.createDirectories (m := StateM Memory) roots s).1 = .error cause) ∧
    Barred (Apply.createDirectories (m := StateM Memory) roots s).2 ∧
    (Apply.createDirectories (m := StateM Memory) roots s).2.tree.file? k = none := by
  induction roots generalizing s with
  | nil =>
    obtain ⟨root, hr, -⟩ := hit
    cases hr
  | cons path rest ih =>
    obtain ⟨cause, failed⟩ := h.replaceDirectory_error path
    have next := Apply.keeps_replaceDirectory (keeps_remove path) (keeps_create path) s h
    refine ⟨⟨cause, Apply.createDirectories_of_error failed⟩, ?_⟩
    obtain ⟨root, hr, below, ne⟩ := hit
    rcases List.mem_cons.mp hr with rfl | hr
    · have lost := h.file?_replaceDirectory below ne
      have keeps : Keeps (fun s => Barred s ∧ s.tree.file? k = none)
          (Apply.createDirectories (m := StateM Memory) rest) :=
        Apply.keeps_createDirectories (fun path _ => keeps_lost_remove path)
          fun path _ => keeps_lost_create path
      exact keeps _ ⟨next, lost⟩
    · exact (ih next ⟨root, hr, below, ne⟩).2

/-- Where no directory can be made, every file below a package root is lost. -/
theorem file?_apply (h : Barred s) (mark : String) (artifacts : List Artifact) {changes : ChangeSet}
    (contained : changes.Contained)
    (hit : ∃ root ∈ changes.directories, root.place <+: k ∧ k ≠ root.place) :
    (Apply.apply (m := StateM Memory) mark artifacts changes s).2.tree.file? k = none := by
  obtain ⟨paths, destined⟩ := contained.destined
  obtain ⟨⟨cause, failed⟩, lost⟩ := h.createDirectories hit
  have stopped := Apply.run_work_of_error (w := Apply.work mark artifacts changes paths) failed
  simp only [Apply.apply, destined, Apply.Work.runOrRollBack, run_bind, stopped]
  exact (Apply.keeps_rollBack (fun path _ => keeps_lost_remove path) _ lost).2

end Barred

/-! ## Emitted files -/

def reported (e : Emitter) (tree : FileTree String) : List Path :=
  match readAt tree e.report with
  | .error _ => []
  | .ok text =>
    match EmitReport.parse text with
    | .error _ => []
    | .ok report => report.artifacts.map fun a => e.absolute a.path

/-- A place where a compiler has put a file: at or below the emission root, or where the report says
so. -/
def IsEmitted (e : Emitter) (o : BuildOptions) (tree : FileTree String) (k : Key) : Prop :=
  tree.isFile k = true ∧ (o.emitRoot.place <+: k ∨ ∃ path ∈ reported e tree, path.place = k)

namespace Build

/-! ## Plans under failure rules -/

section
variable {e : Emitter} {d : Discovery} {o : BuildOptions} {tree : FileTree String} {k : Key}

/-- A plan that is made under failure rules is made without them as well. -/
theorem plannedRoots_of_ok {rules : List FailureRule} {log : List LogEntry}
    {artifacts : List Artifact} {result : BuildResult}
    (prepared : ((prepare (m := StateM Memory) e d o).run ⟨tree, rules, log⟩).1 =
      .ok (artifacts, result)) :
    plannedRoots e d o (ofTree tree) = some result.changes.directories := by
  rw [plannedRoots, brittle_prepare.ok_ofTree prepared]

/-- That no directory can be made is not noticed before there is a plan. -/
theorem prepare_of_plannedRoots {roots : List Path}
    (planned : plannedRoots e d o (ofTree tree) = some roots) :
    ∃ artifacts result, result.changes.directories = roots ∧
      ((prepare (m := StateM Memory) e d o).run ⟨tree, [noDirectories], []⟩).1 =
        .ok (artifacts, result) := by
  have brittle := (brittle_prepare (e := e) (d := d) (o := o)) ⟨tree, [noDirectories], []⟩
  have answer := brittle.2.resolve_right fun h => by
    obtain ⟨c, hc, reads⟩ := h.1
    rw [List.mem_singleton.mp hc] at reads
    rcases reads with e | e <;> cases e
  have free : ((prepare (m := StateM Memory) e d o).run (ofTree tree)).1 =
      ((prepare (m := StateM Memory) e d o).run ⟨tree, [noDirectories], []⟩).1 := answer.symm
  unfold plannedRoots at planned
  rw [free] at planned
  cases prepared : ((prepare (m := StateM Memory) e d o).run ⟨tree, [noDirectories], []⟩).1 with
  | error cause =>
    rw [prepared] at planned
    cases planned
  | ok made =>
    rw [prepared] at planned
    cases planned
    exact ⟨made.1, made.2, rfl, rfl⟩

/-! ## Whole builds -/

theorem run_without_ignoreList {s : Memory} {artifacts : List Artifact} {result : BuildResult}
    (wet : o.dryRun = false) (ignore : o.ignore = none)
    (h : ((prepare (m := StateM Memory) e d o).run s).1 = .ok (artifacts, result)) :
    (run (m := StateM Memory) e d o s).2 =
      (Apply.apply (m := StateM Memory) o.builtinMark artifacts result.changes
        ((prepare (m := StateM Memory) e d o).run s).2).2 := by
  rw [run_of_ok h, if_neg (by simp [wet]), finish, run_bind]
  cases (Apply.apply (m := StateM Memory) o.builtinMark artifacts result.changes
      ((prepare (m := StateM Memory) e d o).run s).2).1 with
  | error cause => rfl
  | ok summary =>
    simp only [writeIgnoreList, ignore]
    rfl

/-- A build that can make no directory loses every file below a planned root. -/
theorem file?_run_barred (wellFormed : tree.WellFormed) (plain : IsName o.manifestName)
    (wet : o.dryRun = false) (ignore : o.ignore = none) {roots : List Path}
    (planned : plannedRoots e d o (ofTree tree) = some roots)
    (hit : ∃ root ∈ roots, root.place <+: k ∧ k ≠ root.place) :
    (run (m := StateM Memory) e d o ⟨tree, [noDirectories], []⟩).2.tree.file? k = none := by
  obtain ⟨artifacts, result, rfl, prepared⟩ := prepare_of_plannedRoots planned
  obtain ⟨contained, -⟩ := contained_of_prepare (s := ⟨tree, [noDirectories], []⟩) wellFormed
    plain prepared
  have same := ((brittle_prepare (e := e) (d := d) (o := o)) ⟨tree, [noDirectories], []⟩).1
  have barred : Barred ⟨tree, [noDirectories], []⟩ := ⟨rfl, wellFormed.rooted⟩
  rw [run_without_ignoreList wet ignore prepared]
  exact (barred.of_same same).file?_apply o.builtinMark artifacts contained hit

/-- Whatever fails, a build keeps a file that no planned root lies above. -/
theorem file?_run (wellFormed : tree.WellFormed) (plain : IsName o.manifestName)
    (wet : o.dryRun = false) (ignore : o.ignore = none)
    (clear : ∀ roots, plannedRoots e d o (ofTree tree) = some roots →
      ∀ root ∈ roots, root.place <+: k → root.place = k)
    (rules : List FailureRule) (log : List LogEntry) {content : String}
    (there : tree.file? k = some content) :
    (run (m := StateM Memory) e d o ⟨tree, rules, log⟩).2.tree.file? k = some content := by
  have same := ((brittle_prepare (e := e) (d := d) (o := o)) ⟨tree, rules, log⟩).1
  have stays : ((prepare (m := StateM Memory) e d o).run ⟨tree, rules, log⟩).2.tree.file? k =
      some content := same.tree ▸ there
  cases prepared : ((prepare (m := StateM Memory) e d o).run ⟨tree, rules, log⟩).1 with
  | error cause =>
    rw [run_of_error prepared]
    exact stays
  | ok made =>
    obtain ⟨artifacts, result⟩ := made
    obtain ⟨contained, -⟩ := contained_of_prepare (s := ⟨tree, rules, log⟩) wellFormed plain
      prepared
    have above := clear result.changes.directories (plannedRoots_of_ok prepared)
    rw [run_without_ignoreList wet ignore prepared]
    exact Apply.keeps_file contained above _ stays

end

/-- Without an ignore list, builds keep every emitted file, whatever fails, exactly if no planned
package root lies above one. -/
theorem emitted_kept_iff (e : Emitter) (d : Discovery) (o : BuildOptions) (tree : FileTree String)
    (wellFormed : tree.WellFormed) (plain : IsName o.manifestName) (wet : o.dryRun = false)
    (ignore : o.ignore = none) :
    (∀ rules log k, IsEmitted e o tree k →
      (run (m := StateM Memory) e d o ⟨tree, rules, log⟩).2.tree.file? k = tree.file? k) ↔
    ∀ roots, plannedRoots e d o (ofTree tree) = some roots →
      ∀ root ∈ roots, ∀ k, IsEmitted e o tree k → root.place <+: k → root.place = k := by
  constructor
  · intro kept roots planned root hr k emitted below
    refine Decidable.byContradiction fun ne => ?_
    obtain ⟨content, node⟩ := FileTree.isFile_iff.mp emitted.1
    have lost := file?_run_barred wellFormed plain wet ignore planned
      ⟨root, hr, below, Ne.symm ne⟩
    rw [kept [noDirectories] [] k emitted, FileTree.file?_eq_some.mpr node] at lost
    cases lost
  · intro clear rules log k emitted
    obtain ⟨content, node⟩ := FileTree.isFile_iff.mp emitted.1
    have there := FileTree.file?_eq_some.mpr node
    rw [there]
    have above := fun roots planned root hr => clear roots planned root hr k emitted
    exact file?_run wellFormed plain wet ignore above rules log there

/-- A module, and a report that lists a file beside the emitted tree as well. -/
def sharedTree : FileTree String :=
  ⟨[(["p"], .directory), (["p", "src"], .directory), (["p", "src", "c.js"], .file "c"),
    (["p", "build"], .directory), (["p", "build", "esm"], .directory),
    (["p", "build", "esm", "a.js"], .file "a"),
    (["p", "build", "emit-report.json"], .file ("\x7b\"artifacts\":[\x7b\"path\":\"a.js\"\x7d," ++
      "\x7b\"path\":\"../../src/c.js\"\x7d]\x7d"))]⟩

theorem emitted_kept_iff_shared : sharedTree.WellFormed ∧
    IsName (Settings.standard.options ⟨"/p"⟩).manifestName ∧
    IsEmitted (Settings.standard.emitter ⟨"/p"⟩) (Settings.standard.options ⟨"/p"⟩) sharedTree
      ["p", "src", "c.js"] ∧
    (plannedRoots (Settings.standard.emitter ⟨"/p"⟩) Settings.standard.discovery
      { Settings.standard.options ⟨"/p"⟩ with ignore := none } (ofTree sharedTree)).any
        (·.map (·.place) == [["p", "a"]]) = true ∧
    ∀ rules log k, IsEmitted (Settings.standard.emitter ⟨"/p"⟩)
        { Settings.standard.options ⟨"/p"⟩ with ignore := none } sharedTree k →
      (run (m := StateM Memory) (Settings.standard.emitter ⟨"/p"⟩) Settings.standard.discovery
        { Settings.standard.options ⟨"/p"⟩ with ignore := none }
        ⟨sharedTree, rules, log⟩).2.tree.file? k = sharedTree.file? k := by
  have tree : sharedTree.WellFormed :=
    FileTree.wellFormed_of_entries (by decide +kernel) (by decide +kernel)
  have listed : (reported (Settings.standard.emitter ⟨"/p"⟩) sharedTree).any
      (·.place == ["p", "src", "c.js"]) = true := by decide +kernel
  obtain ⟨path, mem, place⟩ := List.any_eq_true.mp listed
  have made : (plannedRoots (Settings.standard.emitter ⟨"/p"⟩) Settings.standard.discovery
      { Settings.standard.options ⟨"/p"⟩ with ignore := none } (ofTree sharedTree)).any
        (·.map (·.place) == [["p", "a"]]) = true := by decide +kernel
  have apart : ∀ e ∈ sharedTree.entries, ["p", "a"] <+: e.1 → ["p", "a"] = e.1 := by decide +kernel
  refine ⟨tree, by decide +kernel, ⟨by decide +kernel, .inr ⟨path, mem, beq_iff_eq.mp place⟩⟩,
    made, ?_⟩
  refine (emitted_kept_iff _ _ _ _ tree (by decide +kernel) (by decide +kernel)
    (by decide +kernel)).mpr fun roots planned root hr k emitted below => ?_
  rw [planned] at made
  have places : roots.map (·.place) = [["p", "a"]] := beq_iff_eq.mp made
  have here : root.place = ["p", "a"] :=
    List.mem_singleton.mp (places ▸ List.mem_map_of_mem (f := Path.place) hr)
  obtain ⟨content, node⟩ := FileTree.isFile_iff.mp emitted.1
  have nonempty : k ≠ [] := fun nil => by
    rw [nil] at node
    cases node
  rw [here] at below ⊢
  exact apart _ (FileTree.exists_mem_of_get? nonempty node) below

/-- A project whose report lists a file that stands where a package goes. -/
def crossedTree : FileTree String :=
  ⟨[(["p"], .directory), (["p", "util"], .directory), (["p", "util", "other.js"], .file "other"),
    (["p", "build"], .directory), (["p", "build", "esm"], .directory),
    (["p", "build", "esm", "util.js"], .file "util"),
    (["p", "build", "emit-report.json"], .file ("\x7b\"artifacts\":[\x7b\"path\":\"util.js\"\x7d," ++
      "\x7b\"path\":\"../../util/other.js\"\x7d]\x7d"))]⟩

/-- Making a package removes a listed file that belongs to no module, though nothing fails. -/
theorem listed_file_lost : crossedTree.WellFormed ∧
    (Settings.standard.emitRoot ⟨"/p"⟩).Settled ∧ (Path.mk "/p").Settled ∧
    IsName (Settings.standard.options ⟨"/p"⟩).manifestName ∧
    (((prepare (m := StateM Memory) (Settings.standard.emitter ⟨"/p"⟩) Settings.standard.discovery
      { Settings.standard.options ⟨"/p"⟩ with ignore := none }).run
        (ofTree crossedTree)).1.toOption.any (·.2.packageNames == ["util"])) = true ∧
    IsEmitted (Settings.standard.emitter ⟨"/p"⟩) (Settings.standard.options ⟨"/p"⟩) crossedTree
      ["p", "util", "other.js"] ∧
    (run (m := StateM Memory) (Settings.standard.emitter ⟨"/p"⟩) Settings.standard.discovery
      { Settings.standard.options ⟨"/p"⟩ with ignore := none }
      (ofTree crossedTree)).2.tree.isFile ["p", "util", "other.js"] = false := by
  have listed : (reported (Settings.standard.emitter ⟨"/p"⟩) crossedTree).any
      (·.place == ["p", "util", "other.js"]) = true := by decide +kernel
  obtain ⟨path, mem, place⟩ := List.any_eq_true.mp listed
  exact ⟨FileTree.wellFormed_of_entries (by decide +kernel) (by decide +kernel),
    by decide +kernel, by decide +kernel, by decide +kernel, by decide +kernel,
    ⟨by decide +kernel, .inr ⟨path, mem, beq_iff_eq.mp place⟩⟩, by decide +kernel⟩

end Build
end Apportion
