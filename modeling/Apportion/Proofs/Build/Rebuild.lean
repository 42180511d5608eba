import Apportion.Proofs.Build.Emission
import Apportion.Settings

/-!
Building again. A build whose packages keep clear of what is read (`Build.Secluded`,
`Build.EntriesOutside`) finds the same modules, plans the same and does the same work whatever its
packages held before (`discover_of_alike`, `prepare_of_alike`). So its result does not depend on old
packages, and as the packages are all that it changes (`alike_of_run`), building again changes nothing
(`run_by_emission`).
-/
namespace Apportion
open Memory FileTree

/-! ## Modules -/

namespace Discovery
variable {d : Discovery} {root : Path} {t u : FileTree String}

/-- Modules and their entry points are the same in trees that agree on the paths and on the files that
are tried as entry points. -/
theorem classify_congr {paths : List Path}
    (directories : ∀ path ∈ paths, t.isDirectory path.place = u.isDirectory path.place)
    (entries : ∀ path ∈ paths, t.isDirectory path.place = true → ∀ entry ∈ d.entries path,
      t.isFile entry.place = u.isFile entry.place) :
    (d.classify (m := StateM Memory) root paths (.ofTree t)).1 =
      (d.classify (m := StateM Memory) root paths (.ofTree u)).1 := by
  have found : paths.filterMap (d.moduleAt t root) = paths.filterMap (d.moduleAt u root) := by
    refine List.filterMap_congr fun path hp => ?_
    unfold moduleAt entryIn
    rw [← directories path hp]
    cases directory : t.isDirectory path.place with
    | false => rfl
    | true => rw [List.find?_congr (entries path hp directory)]
  rw [run_classify, run_classify, ofTree, ofTree, found]

/-- What is discovered depends on what lies at and below the root, and on the files that are tried as
entry points. -/
theorem discover_congr (form : t.WellFormed) (same : ∀ k, root.place <+: k → t.get? k = u.get? k)
    (entries : ∀ name, t.isDirectory (root.place ++ [name]) = true →
      ∀ entry ∈ d.entries (root.join ⟨name⟩), t.isFile entry.place = u.isFile entry.place) :
    (d.discover (m := StateM Memory) root (.ofTree t)).1 =
      (d.discover (m := StateM Memory) root (.ofTree u)).1 := by
  have children : t.children root.place = u.children root.place :=
    children_congr fun s => by rw [same _ (List.prefix_append _ _)]
  have here : t.isDirectory root.place = u.isDirectory root.place := by
    rw [FileTree.isDirectory, FileTree.isDirectory, same _ (List.prefix_refl _)]
  have listed : listAt t root = listAt u root := by rw [listAt, listAt, here, children]
  have directory (tree : FileTree String) : Workspace.isDirectory (m := StateM Memory) root
    (.ofTree tree) = (tree.isDirectory root.place, .ofTree tree) := rfl
  have list (tree : FileTree String) : Workspace.list (m := StateM Memory) root (.ofTree tree) =
    (listAt tree root, .ofTree tree) := rfl
  simp only [discover, run_bind, directory, here]
  split
  · rfl
  · simp only [run_bind, list, ← listed]
    cases found : listAt t root with
    | error cause => rfl
    | ok paths =>
      have at_child : ∀ path ∈ paths, ∃ name, path = root.join ⟨name⟩ ∧
          path.place = root.place ++ [name] := by
        intro path hp
        obtain ⟨name, rfl, present⟩ := of_listAt found path hp
        exact ⟨name, rfl, Path.place_join_name root (form.named _ present name (by simp))⟩
      have modules : (d.classify (m := StateM Memory) root paths (.ofTree t)).1 =
          (d.classify (m := StateM Memory) root paths (.ofTree u)).1 := by
        refine classify_congr (fun path hp => ?_) fun path hp directory => ?_
        · obtain ⟨name, -, place⟩ := at_child path hp
          rw [place, FileTree.isDirectory, FileTree.isDirectory, same _ (List.prefix_append _ _)]
        · obtain ⟨name, rfl, place⟩ := at_child path hp
          exact entries name (place ▸ directory)
      simp only [run_bind, run_pure, modules]

end Discovery

namespace Build
variable {e : Emitter} {d : Discovery} {o : BuildOptions} {t u : FileTree String}

/-! ## Packages of a tree -/

def packageNames (d : Discovery) (o : BuildOptions) (tree : FileTree String) : List String :=
  match (d.discover (m := StateM Memory) o.emitRoot (.ofTree tree)).1 with
  | .error _ => []
  | .ok modules => (o.partition.packages modules []).map (·.name)

def packageRoots (d : Discovery) (o : BuildOptions) (tree : FileTree String) : List Path :=
  (packageNames d o tree).map fun name => o.projectRoot.join ⟨name⟩

def packagePlaces (d : Discovery) (o : BuildOptions) (tree : FileTree String) : List Key :=
  (packageRoots d o tree).map (·.place)

/-- A build whose packages have ordinary names and meet neither the emitted tree nor the report and what
it lists. -/
structure Secluded (e : Emitter) (d : Discovery) (o : BuildOptions) (tree : FileTree String) :
    Prop where
  names : ∀ name ∈ packageNames d o tree, name ≠ "." ∧ name ≠ ".."
  emission : ∀ root ∈ packagePlaces d o tree,
    ¬ root <+: o.emitRoot.place ∧ ¬ o.emitRoot.place <+: root
  report : ∀ root ∈ packagePlaces d o tree, ¬ root <+: e.report.place
  reported : ∀ path ∈ reported e tree, ∀ root ∈ packagePlaces d o tree, ¬ root <+: path.place

/-- No candidate for an entry point leads from the directory of a module into a package. -/
def EntriesOutside (d : Discovery) (o : BuildOptions) (tree : FileTree String) : Prop :=
  ∀ name, tree.isDirectory (o.emitRoot.place ++ [name]) = true →
    ∀ base ∈ d.entryCandidates, ∀ x ∈ d.codeExtensions, inside (packagePlaces d o tree)
      ((o.emitRoot.join ⟨name⟩).join ⟨base ++ x⟩).place = false

/-- Manifests are in their packages. -/
def ManifestsInside (d : Discovery) (o : BuildOptions) (tree : FileTree String) : Prop :=
  ∀ root ∈ packageRoots d o tree, root.place <+: (root.join ⟨o.manifestName⟩).place

theorem packageNames_of_discover {modules : List EmittedModule}
    (found : (d.discover (m := StateM Memory) o.emitRoot (.ofTree t)).1 = .ok modules)
    (artifacts : List Artifact) :
    packageNames d o t = (o.partition.packages modules artifacts).map (·.name) := by
  rw [packageNames, found]
  exact o.partition.names_congr modules _ _

theorem packageRoots_of_discover {modules : List EmittedModule}
    (found : (d.discover (m := StateM Memory) o.emitRoot (.ofTree t)).1 = .ok modules)
    (artifacts : List Artifact) :
    packageRoots d o t = (o.partition.packages modules artifacts).map o.planner.packageRoot := by
  rw [packageRoots, packageNames_of_discover found artifacts, List.map_map]
  rfl

theorem packageNames_congr (same : (d.discover (m := StateM Memory) o.emitRoot (.ofTree t)).1 =
    (d.discover (m := StateM Memory) o.emitRoot (.ofTree u)).1) :
    packageNames d o t = packageNames d o u := by
  rw [packageNames, packageNames, same]

theorem reported_congr (same : t.file? e.report.place = u.file? e.report.place) :
    reported e t = reported e u := by
  unfold reported
  cases there : readAt t e.report with
  | ok text =>
    rw [readAt_eq_ok_iff, same, ← readAt_eq_ok_iff] at there
    rw [there]
  | error cause =>
    cases there' : readAt u e.report with
    | ok text =>
      rw [readAt_eq_ok_iff, ← same, ← readAt_eq_ok_iff, there] at there'
      cases there'
    | error cause' => rfl

section
variable (form : t.WellFormed) (secluded : Secluded e d o t)
include form secluded

/-- The packages lie side by side in the project. -/
theorem Secluded.exists_place {root : Path} (h : root ∈ packageRoots d o t) :
    ∃ name, root.place = o.projectRoot.place ++ [name] := by
  obtain ⟨name, hn, rfl⟩ := List.mem_map.mp h
  refine ⟨name, Path.place_join_name _ ?_⟩
  obtain ⟨dot, dots⟩ := secluded.names name hn
  unfold packageNames at hn
  cases found : (d.discover (m := StateM Memory) o.emitRoot (.ofTree t)).1 with
  | error cause => simp [found] at hn
  | ok modules =>
    simp only [found] at hn
    obtain ⟨package, hp, rfl⟩ := List.mem_map.mp hn
    exact Partition.isName_of_shallow (Discovery.shallow_of_discover form found) hp dot dots

theorem Secluded.deep : ∀ root ∈ packagePlaces d o t, root ≠ [] := by
  intro root hr
  obtain ⟨path, hp, rfl⟩ := List.mem_map.mp hr
  obtain ⟨name, place⟩ := secluded.exists_place form hp
  simp [place]

theorem Secluded.apart : ∀ a ∈ packageRoots d o t, ∀ b ∈ packageRoots d o t,
    a.place <+: b.place → a.place = b.place := by
  intro a ha b hb below
  obtain ⟨name, first⟩ := secluded.exists_place form ha
  obtain ⟨other, second⟩ := secluded.exists_place form hb
  exact below.eq_of_length (by simp [first, second])

end

section
variable (secluded : Secluded e d o t) (alike : Alike (packagePlaces d o t) t u)
include secluded alike

/-- At and below the emission root the trees hold the same. -/
theorem Secluded.get?_eq {k : Key} (below : o.emitRoot.place <+: k) : t.get? k = u.get? k :=
  alike.get?_eq fun root hr => by
    obtain ⟨above, within⟩ := secluded.emission root hr
    exact ⟨fun leads => (List.prefix_or_prefix_of_prefix leads below).elim above within,
      fun leads => within (below.trans leads)⟩

variable (proper : ∀ x ∈ e.resolver.extensions ++ d.codeExtensions, Path.IsExtension x)
  (sought : EntriesOutside d o t) (form : t.WellFormed)
include proper sought form

/-- Trees that are alike outside of the packages have the same modules. -/
theorem discover_of_alike : (d.discover (m := StateM Memory) o.emitRoot (.ofTree t)).1 =
    (d.discover (m := StateM Memory) o.emitRoot (.ofTree u)).1 := by
  refine Discovery.discover_congr form (fun k => secluded.get?_eq alike)
    fun name directory entry hx => ?_
  have present : (t.get? (o.emitRoot.place ++ [name])).isSome = true := by
    rw [isDirectory_iff.mp directory]
    rfl
  have isName := form.named _ present name (by simp)
  obtain ⟨base, hb, x, hc, rfl⟩ := Discovery.exists_of_mem_entries isName hx
  rcases List.mem_append.mp hb with hb | hb
  · exact alike.isFile_eq (sought name directory base hb x hc)
  · -- the candidate with the directory's own name lies in the emitted tree
    obtain rfl := List.mem_singleton.mp hb
    have name' := (proper x (List.mem_append_right _ hc)).isName_append isName
    rw [Path.place_join_name _ name', Path.place_join_name _ isName, List.append_assoc, isFile, isFile,
      file?, file?, secluded.get?_eq alike (List.prefix_append _ _)]

theorem packagePlaces_of_alike : packagePlaces d o t = packagePlaces d o u := by
  rw [packagePlaces, packagePlaces, packageRoots, packageRoots,
    packageNames_congr (discover_of_alike secluded alike proper sought form)]

theorem Secluded.of_alike : Secluded e d o u := by
  have names := packageNames_congr (discover_of_alike secluded alike proper sought form)
  have places := packagePlaces_of_alike secluded alike proper sought form
  have listed : Apportion.reported e t = Apportion.reported e u :=
    reported_congr (alike.files _ secluded.report)
  exact ⟨names ▸ secluded.names, places ▸ secluded.emission, places ▸ secluded.report,
    places ▸ listed ▸ secluded.reported⟩

theorem EntriesOutside.of_alike : EntriesOutside d o u := by
  intro name directory
  rw [← packagePlaces_of_alike secluded alike proper sought form]
  refine sought name ?_
  rw [FileTree.isDirectory, secluded.get?_eq alike (List.prefix_append _ _)]
  exact directory

end

/-! ## Preparing -/

section
variable (secluded : Secluded e d o t) (alike : Alike (packagePlaces d o t) t u)
  (proper : ∀ x ∈ e.resolver.extensions ++ d.codeExtensions, Path.IsExtension x)
  (sought : EntriesOutside d o t) (form : t.WellFormed)
include secluded alike proper sought form

/-- In trees that are alike outside of the packages the same is planned, and by the same work. -/
theorem prepare_of_alike {artifacts : List Artifact} {result : BuildResult}
    (h : ((prepare (m := StateM Memory) e d o).run (.ofTree t)).1 = .ok (artifacts, result)) :
    ∃ others, ((prepare (m := StateM Memory) e d o).run (.ofTree u)).1 = .ok (others, result) ∧
      ∀ changes paths, Apply.work o.builtinMark others changes paths =
        Apply.work o.builtinMark artifacts changes paths := by
  obtain ⟨modules, emitted, found, plan⟩ := prepare_eq_ok_iff.mp h
  obtain ⟨others, emitted', pruned⟩ := e.emit_of_alike
    (fun x hx => proper x (List.mem_append_left _ hx)) (secluded.deep form) alike secluded.report
    secluded.reported emitted
  have known : ∀ a ∈ artifacts, ∀ q : Path, a.path.components = q.components →
      Path.outside (packagePlaces d o t) q = true := by
    intro a ha q same
    have mem := (Emitter.tells_of_emit emitted a ha).mem_reported
    exact Path.outside_of_components (secluded.reported _ mem) same
  have known' : ∀ b ∈ others, ∀ q : Path, b.path.components = q.components →
      Path.outside (packagePlaces d o t) q = true := by
    intro b hb
    have mem := List.mem_map_of_mem (f := Artifact.pruned (Path.outside (packagePlaces d o t))) hb
    rw [pruned] at mem
    obtain ⟨a, ha, same⟩ := List.mem_map.mp mem
    have path : a.path = b.path := by simpa using congrArg Artifact.path same
    exact path ▸ known a ha
  have found' := (discover_of_alike secluded alike proper sought form).symm.trans found
  refine ⟨others, prepare_eq_ok_iff.mpr ⟨modules, emitted', found', ?_⟩, fun changes paths => ?_⟩
  · rw [← planned_pruned known', pruned, planned_pruned known, plan]
  · calc Apply.work o.builtinMark others changes paths
      _ = Apply.work o.builtinMark (others.map (·.pruned (Path.outside (packagePlaces d o t))))
          changes paths := Apply.work_pruned.symm
      _ = _ := by rw [pruned, Apply.work_pruned]

end

/-! ## Building -/

variable {s w : Memory} {result : BuildResult}

theorem directories_of_prepare {artifacts : List Artifact}
    (h : ((prepare (m := StateM Memory) e d o).run (.ofTree t)).1 = .ok (artifacts, result)) :
    result.changes.directories = packageRoots d o t := by
  obtain ⟨modules, -, found, plan⟩ := prepare_eq_ok_iff.mp h
  obtain ⟨-, directories, -⟩ := Planner.plan_eq_ok (planned_eq_ok plan).1
  rw [directories, packageRoots_of_discover found artifacts]

section
variable (wet : o.dryRun = false)
  (proper : ∀ x ∈ e.resolver.extensions ++ d.codeExtensions, Path.IsExtension x)
  (secluded : Secluded e d o s.tree) (sought : EntriesOutside d o s.tree) (form : s.tree.WellFormed)
  (free : s.rules = [])
include wet proper secluded sought form free

/-- In workspaces that are alike outside of the packages, a build that succeeds in one does in the other,
with the same result, and leaves trees that match. -/
theorem run_of_alike (rooted : w.tree.Rooted) (free' : w.rules = [])
    (alike : Alike (packagePlaces d o s.tree) s.tree w.tree)
    (ok : (run (m := StateM Memory) e d o s).1 = .ok result) :
    (run (m := StateM Memory) e d o w).1 = .ok result ∧
      (run (m := StateM Memory) e d o s).2.tree.Matches (run (m := StateM Memory) e d o w).2.tree := by
  obtain ⟨artifacts, plan, paths, between, prepared, destined, worked, written, rfl⟩ :=
    run_eq_ok wet ok
  rw [brittle_prepare.eq_of_free free] at prepared
  obtain ⟨others, prepared', same⟩ := prepare_of_alike secluded alike proper sought form prepared
  have roots := directories_of_prepare prepared
  rw [← brittle_prepare.eq_of_free free'] at prepared'
  obtain ⟨cleared, first, second⟩ := Except.bind_eq_ok.mp worked
  -- the work is the same, on trees that match as soon as the packages are made
  have apart : ∀ a ∈ plan.changes.directories, ∀ b ∈ plan.changes.directories,
      a.place <+: b.place → a.place = b.place := roots ▸ secluded.apart form
  obtain ⟨cleared', first', matched⟩ := Apply.exists_replaceAll_of_alike apart (.refl _) form.rooted
    rooted (by rw [roots]; exact alike) first
  obtain ⟨between', second', matched⟩ := Apply.steered_tasks _ _ _ _ matched second
  obtain ⟨tree', written', matched⟩ := steered_listAt o _ _ _ _ matched written
  have worked' :
      (Apply.work o.builtinMark others plan.changes paths).actAt w.tree = .ok between' := by
    rw [same]
    exact Except.bind_eq_ok.mpr ⟨cleared', first', second'⟩
  obtain ⟨result', ok'⟩ := run_of_free wet free' prepared' destined worked' written'
  obtain ⟨others', plan', paths', last, again, destined'', worked'', written'', rfl⟩ :=
    run_eq_ok wet ok'
  obtain ⟨rfl, rfl⟩ := Prod.mk.inj (Except.ok.inj (again.symm.trans prepared'))
  obtain rfl := Except.ok.inj (destined''.symm.trans destined)
  obtain rfl := Except.ok.inj (worked''.symm.trans worked')
  obtain rfl := Except.ok.inj (written''.symm.trans written')
  exact ⟨by rw [ok', same], matched⟩

omit proper sought in
/-- A build that lists nothing leaves what is outside of its packages as it was, if its manifests are in
them. -/
theorem alike_of_run (unlisted : o.ignore = none)
    (inside : ManifestsInside d o s.tree)
    (ok : (run (m := StateM Memory) e d o s).1 = .ok result) :
    Alike (packagePlaces d o s.tree) s.tree (run (m := StateM Memory) e d o s).2.tree ∧
      (run (m := StateM Memory) e d o s).2.tree.Rooted := by
  obtain ⟨artifacts, plan, paths, between, prepared, destined, worked, written, rfl⟩ :=
    run_eq_ok wet ok
  rw [brittle_prepare.eq_of_free free] at prepared
  simp only [listAt, unlisted, Except.ok.injEq] at written
  have roots := directories_of_prepare prepared
  obtain ⟨modules, emitted, found, planned⟩ := prepare_eq_ok_iff.mp prepared
  have shallow := Discovery.shallow_of_discover (s := .ofTree s.tree) form found
  have contained := Planner.contained_of_inside (planned_eq_ok planned).1
    (fun package hp => inside _ (packageRoots_of_discover found artifacts ▸ List.mem_map_of_mem hp))
    fun package hp a ha =>
      Planner.member_of_shallow shallow (Emitter.normal_of_emit emitted) hp ha
  have made : (Apply.work o.builtinMark artifacts plan.changes paths).directories =
    packageRoots d o s.tree := roots
  have below : ∀ task ∈ (Apply.work o.builtinMark artifacts plan.changes paths).tasks,
      ∃ r ∈ (Apply.work o.builtinMark artifacts plan.changes paths).directories.map (·.place),
        r <+: task.target.place := by
    intro task ht
    obtain ⟨root, hr, under⟩ := contained.below _ (Apply.target_mem_writes destined task ht)
    exact ⟨_, List.mem_map_of_mem hr, under⟩
  rw [← written, packagePlaces, ← made]
  exact Apply.alike_of_actAt form.rooted (made ▸ secluded.apart form) below worked

end

/-- A build depends on nothing in its packages: in workspaces that are alike outside of them it succeeds
or fails alike, with the same result, and what it leaves is the same everywhere. So after a build that
lists nothing the same build succeeds again, and changes nothing. -/
theorem run_by_emission (wet : o.dryRun = false)
    (proper : ∀ x ∈ e.resolver.extensions ++ d.codeExtensions, Path.IsExtension x)
    (secluded : Secluded e d o s.tree) (sought : EntriesOutside d o s.tree)
    (form : s.tree.WellFormed) (form' : w.tree.WellFormed)
    (free : s.rules = []) (free' : w.rules = [])
    (alike : Alike (packagePlaces d o s.tree) s.tree w.tree) :
    (∀ result, (run (m := StateM Memory) e d o s).1 = .ok result ↔
      (run (m := StateM Memory) e d o w).1 = .ok result) ∧
    (∀ result, (run (m := StateM Memory) e d o s).1 = .ok result →
      (run (m := StateM Memory) e d o s).2.tree.Matches (run (m := StateM Memory) e d o w).2.tree) ∧
    (o.ignore = none → ManifestsInside d o s.tree →
      ∀ result, (run (m := StateM Memory) e d o s).1 = .ok result →
      ∀ again : Memory, again.rules = [] → again.tree = (run (m := StateM Memory) e d o s).2.tree →
        (run (m := StateM Memory) e d o again).1 = .ok result ∧
          (run (m := StateM Memory) e d o again).2.tree.Matches again.tree) := by
  have forth {result : BuildResult} (ok : (run (m := StateM Memory) e d o s).1 = .ok result) :=
    run_of_alike wet proper secluded sought form free form'.rooted free' alike ok
  refine ⟨fun result => ⟨fun ok => (forth ok).1, fun ok => ?_⟩, fun result ok => (forth ok).2, ?_⟩
  · have back := packagePlaces_of_alike secluded alike proper sought form ▸ alike.symm
    exact (run_of_alike wet proper (secluded.of_alike alike proper sought form)
      (sought.of_alike secluded alike proper form) form' free' form.rooted free back ok).1
  · intro unlisted inside result ok again free'' same
    obtain ⟨left, rooted⟩ := alike_of_run wet secluded form free unlisted inside ok
    rw [← same] at left rooted
    obtain ⟨ok', matched⟩ := run_of_alike wet proper secluded sought form free rooted free'' left ok
    exact ⟨ok', same ▸ matched.symm⟩

/-! ## A directory that is packaged -/

/-- A project of one directory, with a file to enter it by. -/
def libTree : FileTree String :=
  ⟨[(["p"], .directory), (["p", "build"], .directory), (["p", "build", "esm"], .directory),
    (["p", "build", "esm", "lib"], .directory), (["p", "build", "esm", "lib", "index.js"], .file ""),
    (["p", "build", "emit-report.json"],
      .file "\x7b\"artifacts\":[[\"lib/index.js\",[]]]\x7d")]⟩

/-- The same where there is a package already. -/
def packagedTree : FileTree String :=
  ⟨libTree.entries ++ [(["p", "lib"], .directory), (["p", "lib", "index.js"], .file "")]⟩

def libEmitter : Emitter := Settings.standard.emitter ⟨"/p"⟩

def libOptions : BuildOptions := { Settings.standard.options ⟨"/p"⟩ with ignore := none }

theorem wellFormed_lib : libTree.WellFormed ∧ packagedTree.WellFormed :=
  ⟨wellFormed_of_entries (by decide) (by decide),
    wellFormed_of_entries (by decide) (by decide)⟩

section
variable (names : packageNames d o libTree = ["lib"]) (project : o.projectRoot = ⟨"/p"⟩)
include names project

theorem packagePlaces_lib : packagePlaces d o libTree = [["p", "lib"]] := by
  rw [packagePlaces, packageRoots, names, project]
  decide

theorem secluded_lib (emission : o.emitRoot = libOptions.emitRoot) :
    Secluded libEmitter d o libTree := by
  have emitted : (reported libEmitter libTree).map (·.place) =
      [["p", "build", "esm", "lib", "index.js"]] := by decide +kernel
  have places := packagePlaces_lib names project
  refine ⟨by simp [names], ?_, ?_, fun path hp => ?_⟩
  · rw [places, emission]
    decide +kernel
  · rw [places]
    decide +kernel
  · have place : path.place = ["p", "build", "esm", "lib", "index.js"] :=
      List.mem_singleton.mp (emitted ▸ List.mem_map_of_mem hp)
    rw [places, place]
    decide +kernel

theorem alike_packaged : Alike (packagePlaces d o libTree) libTree packagedTree := by
  rw [packagePlaces_lib names project]
  exact Alike.append (by decide) (by decide)

end

/-- What a package held before does not matter, and building again does nothing more. -/
theorem run_by_emission_lib : ∃ result,
    (run (m := StateM Memory) libEmitter Settings.standard.discovery libOptions
      (.ofTree libTree)).1 = .ok result ∧
    (run (m := StateM Memory) libEmitter Settings.standard.discovery libOptions
      (.ofTree packagedTree)).1 = .ok result ∧
    (run (m := StateM Memory) libEmitter Settings.standard.discovery libOptions
      (.ofTree libTree)).2.tree.Matches
      (run (m := StateM Memory) libEmitter Settings.standard.discovery libOptions
        (.ofTree packagedTree)).2.tree ∧
    ∀ again : Memory, again.rules = [] → again.tree = (run (m := StateM Memory) libEmitter
        Settings.standard.discovery libOptions (.ofTree libTree)).2.tree →
      (run (m := StateM Memory) libEmitter Settings.standard.discovery libOptions again).1 =
        .ok result ∧
      (run (m := StateM Memory) libEmitter Settings.standard.discovery libOptions
        again).2.tree.Matches again.tree := by
  have names : packageNames Settings.standard.discovery libOptions libTree = ["lib"] := by
    decide +kernel
  have sought : EntriesOutside Settings.standard.discovery libOptions libTree := by
    intro name directory
    have only : name ∈ libTree.children libOptions.emitRoot.place :=
      mem_children_iff.mpr (by rw [isDirectory_iff.mp directory]; rfl)
    rw [show libTree.children libOptions.emitRoot.place = ["lib"] by decide +kernel] at only
    rw [packagePlaces_lib names rfl, List.mem_singleton.mp only]
    decide +kernel
  have inside : ManifestsInside Settings.standard.discovery libOptions libTree := by
    rw [ManifestsInside, packageRoots, names]
    decide +kernel
  have ok := Except.eq_ok_of_isSome
    (x := (run (m := StateM Memory) libEmitter Settings.standard.discovery libOptions
      (.ofTree libTree)).1) (by decide +kernel) ⟨[], [], ⟨[]⟩, none, none⟩
  obtain ⟨same, matched, again⟩ := run_by_emission (e := libEmitter)
    (d := Settings.standard.discovery) (o := libOptions) (s := .ofTree libTree)
    (w := .ofTree packagedTree) rfl (by decide +kernel) (secluded_lib names rfl rfl) sought
    wellFormed_lib.1 wellFormed_lib.2 rfl rfl (alike_packaged names rfl)
  exact ⟨_, ok, (same _).mp ok, matched _ ok, again rfl inside _ ok⟩

/-- Entry points that are sought where the package goes. -/
def steppingDiscovery : Discovery :=
  { Settings.standard.discovery with entryCandidates := ["../../../lib/index"] }

/-- Options by which a manifest goes where the report is. -/
def overwritingOptions : BuildOptions :=
  { libOptions with manifestName := "../build/emit-report.json" }

/-- Where an entry point is sought in a package, the package matters. And where a manifest takes the place
of the report, building again packages nothing. -/
theorem rebuilt_otherwise :
    (∀ x ∈ libEmitter.resolver.extensions ++ steppingDiscovery.codeExtensions, Path.IsExtension x) ∧
    libTree.WellFormed ∧ packagedTree.WellFormed ∧
    (Secluded libEmitter steppingDiscovery libOptions libTree ∧
      Alike (packagePlaces steppingDiscovery libOptions libTree) libTree packagedTree ∧
      ∃ first second,
        (run (m := StateM Memory) libEmitter steppingDiscovery libOptions (.ofTree libTree)).1 =
          .ok first ∧
        (run (m := StateM Memory) libEmitter steppingDiscovery libOptions
          (.ofTree packagedTree)).1 = .ok second ∧ first ≠ second) ∧
    Secluded libEmitter Settings.standard.discovery overwritingOptions libTree ∧
      ∃ first, (run (m := StateM Memory) libEmitter Settings.standard.discovery overwritingOptions
          (.ofTree libTree)).1 = .ok first ∧
        ¬ (run (m := StateM Memory) libEmitter Settings.standard.discovery overwritingOptions
            (.ofTree (run (m := StateM Memory) libEmitter Settings.standard.discovery
              overwritingOptions (.ofTree libTree)).2.tree)).2.tree.Matches
          (run (m := StateM Memory) libEmitter Settings.standard.discovery overwritingOptions
            (.ofTree libTree)).2.tree := by
  have stepping : packageNames steppingDiscovery libOptions libTree = ["lib"] := by decide +kernel
  have overwriting :
      packageNames Settings.standard.discovery overwritingOptions libTree = ["lib"] := by
    decide +kernel
  have entered (tree : FileTree String) (entry : Bool) (h : ((run (m := StateM Memory) libEmitter
      steppingDiscovery libOptions (.ofTree tree)).1.toOption.any
        fun r => r.packages.map (·.entryPoint) == [entry]) = true) :
      ∃ result, (run (m := StateM Memory) libEmitter steppingDiscovery libOptions
        (.ofTree tree)).1 = .ok result ∧ result.packages.map (·.entryPoint) = [entry] := by
    simp only [Option.any_eq_true, beq_iff_eq] at h
    obtain ⟨result, ok, packages⟩ := h
    exact ⟨result, Except.eq_ok_of_toOption ok, packages⟩
  obtain ⟨first, ok, without⟩ := entered libTree false (by decide +kernel)
  obtain ⟨second, ok', within⟩ := entered packagedTree true (by decide +kernel)
  have lost : ((run (m := StateM Memory) libEmitter Settings.standard.discovery overwritingOptions
        (.ofTree (run (m := StateM Memory) libEmitter Settings.standard.discovery
          overwritingOptions (.ofTree libTree)).2.tree)).2.tree.isFile ["p", "lib", "index.js"] !=
      (run (m := StateM Memory) libEmitter Settings.standard.discovery overwritingOptions
        (.ofTree libTree)).2.tree.isFile ["p", "lib", "index.js"]) = true := by
    decide +kernel
  refine ⟨by decide +kernel, wellFormed_lib.1, wellFormed_lib.2, ⟨secluded_lib stepping rfl rfl,
    alike_packaged stepping rfl, first, second, ok, ok', fun same => ?_⟩,
    secluded_lib overwriting rfl rfl, _, Except.eq_ok_of_isSome (by decide +kernel)
      ⟨[], [], ⟨[]⟩, none, none⟩, fun matched => ?_⟩
  · rw [same, within] at without
    cases without
  · exact bne_iff_ne.mp lost (matched.isFile _)

end Build
end Apportion
