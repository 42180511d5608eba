import Apportion.Proofs.Build.Acceptance
import Apportion.Proofs.Build.Emission
import Apportion.Proofs.Build.Outcome
import Apportion.Proofs.Build.Success
import Apportion.Proofs.Edit.Standing
import Apportion.Settings

/-!
Resolution after a build. Of all texts written to a packaged file's place the last one is the file's own
(`file?_of_text`), in which each reference to a packaged file stands as the way to that file's
destination. Since a file lies there, resolving the reference from the packaged file gives that
destination, and references to anything else stand as they did (`resolution_kept`).
-/
namespace Apportion
open Apply Memory

namespace Planner
variable {p : Planner} {extension mark : String} {modules : List EmittedModule}
  {artifacts : List Artifact} {changes : ChangeSet} {paths : PathMap} {package : Package} {a : Artifact}
  {before after : FileTree String}

/-! ## The last text -/

section
variable (planned : p.plan (Partition.packages ⟨p.emitRoot, extension⟩ modules artifacts) = .ok changes)
  (destined : changes.destinations = .ok paths)
  (names : ∀ package ∈ Partition.packages ⟨p.emitRoot, extension⟩ modules artifacts,
    IsName package.name)
  (member : ∀ package ∈ Partition.packages ⟨p.emitRoot, extension⟩ modules artifacts,
    ∀ a ∈ package.artifacts, p.Member package a)
include planned destined

/-- A packaged file is there after the work. -/
theorem isFile_of_packaged
    (worked : (work mark artifacts changes paths).actAt before = .ok after)
    (hp : package ∈ Partition.packages ⟨p.emitRoot, extension⟩ modules artifacts)
    (ha : a ∈ package.artifacts) : after.isFile (p.finalPath package a).place = true := by
  obtain ⟨cleared, -, wrote⟩ := Except.bind_eq_ok.mp worked
  obtain ⟨t, ht, same⟩ := exists_file_of_move mark destined
    ((mem_moves_iff planned).mpr ⟨package, hp, a, ha, rfl, rfl⟩)
  have mem : t ∈ (work mark artifacts changes paths).tasks := by
    rw [Work.tasks_eq]
    exact List.mem_append_right _ ht
  obtain ⟨-, -, -, -, text, -, there⟩ := file?_of_last wrote ⟨t, mem, congrArg Path.place same⟩
  rw [FileTree.isFile, there]
  rfl

omit planned in
theorem editsFor_of_copied (ha : a ∈ artifacts) (kind : a.isMap = false) {move : Path × Path}
    (hm : move ∈ copied mark artifacts changes paths) (same : a.path.components = move.1.components) :
    editsFor mark changes a = [] := by
  obtain ⟨moved, alone⟩ := List.mem_filter.mp hm
  refine Classical.byContradiction fun edits => ?_
  have revised : ⟨a, move.2, editsFor mark changes a⟩ ∈ Apply.revisions mark artifacts changes paths :=
    mem_revisions_iff.mpr ⟨ha, (PathMap.get?_eq_some_iff destined).mpr ⟨move.1, moved, same.symm⟩, kind,
      edits, rfl⟩
  have listed : (a.path, move.2) ∈ remade mark artifacts changes paths :=
    List.mem_append_left _ (List.mem_map_of_mem
      (f := fun r : Revision => (r.artifact.path, r.target)) revised)
  rw [contains_sources_iff.mpr ⟨_, listed, same⟩] at alone
  cases alone

include names member

/-- Whatever makes a move to the place of a packaged file that is no position map gives it its own
text with all edits. -/
theorem text_of_file (tidy : ∀ a ∈ artifacts, a.path.Tidy)
    (hp : package ∈ Partition.packages ⟨p.emitRoot, extension⟩ modules artifacts)
    (ha : a ∈ package.artifacts) (kind : a.isMap = false) {t : Task}
    (ht : t ∈ (work mark artifacts changes paths).files)
    (here : t.target.place = (p.finalPath package a).place) {text : String}
    (supplied : t.supply.at before = .ok text) :
    ∃ buffer, (EditBuffer.ofText a.content).overwriteAll (editsFor mark changes a) = .ok buffer ∧
      buffer.render = text := by
  have packaged : a ∈ (Partition.packages ⟨p.emitRoot, extension⟩ modules artifacts).flatMap
      (·.artifacts) := List.mem_flatMap.mpr ⟨package, hp, ha⟩
  -- the artifact that goes to this place is this one
  have own : ∀ {path target : Path}, paths.get? path = some target →
      target.place = (p.finalPath package a).place → a.path.components = path.components := by
    intro path target led same
    obtain ⟨other, ho, b, hb, components, rfl⟩ := (get?_destinations planned destined).mp led
    rw [← components, eq_of_place_finalPath planned names member ho hb hp ha same]
  rcases mem_files_iff.mp ht with ⟨r, hr, rfl⟩ | ⟨r, path, map, target, hc, rfl⟩ | ⟨move, hm, rfl⟩
  · obtain ⟨mem, led, -, -, edits⟩ := mem_revisions_iff.mp hr
    have same := own led here
    have packaged' := List.mem_flatMap.mpr ⟨package, hp, Partition.mem_artifacts_congr hp ha mem same⟩
    obtain rfl := eq_of_packaged planned packaged packaged' same
    rw [← edits]
    exact Revision.at_task_eq_ok.mp supplied
  · -- what comes along with an edited file is a position map
    obtain ⟨hr, owned, -, led⟩ := mem_companions_iff.mp hc
    obtain ⟨beside, s, named⟩ := Artifact.of_map? owned
    have map : Kind.ofPath a.path = .positionMap := by
      rw [Path.kind_congr (own led here), beside]
      exact Path.kind_mapPath (tidy _ (mem_revisions_iff.mp hr).1) named
    rw [Artifact.isMap, Artifact.kind, map] at kind
    cases kind
  · rw [target_copyTask] at here
    have led := (PathMap.get?_eq_some_iff destined).mpr ⟨move.1, (List.mem_filter.mp hm).1, rfl⟩
    have same := own led here
    have unedited := editsFor_of_copied destined (Partition.mem_of_mem_artifacts hp ha) kind hm same
    rw [copyTask, artifactAt_of_plan planned packaged same] at supplied
    have sources : changes.sourcesOf move.1 = none := by
      rw [← sourcesOf_of_text planned packaged kind]
      have congr : ∀ path : Path, (path == move.1) = (path == a.path) := fun path => by
        rw [Bool.eq_iff_iff, Path.beq_iff, Path.beq_iff, same]
      simp only [ChangeSet.sourcesOf, congr]
    rcases revisedText_eq_ok.mp supplied with ⟨-, rfl⟩ | ⟨_, _, _, planned', -⟩
    · rw [unedited]
      exact ⟨_, rfl, by simp [EditBuffer.render, EditBuffer.stretches, EditBuffer.stretchesFrom,
        EditBuffer.ofText, Stretch.rendered]⟩
    · rw [sources] at planned'
      cases planned'

theorem file?_of_text (tidy : ∀ a ∈ artifacts, a.path.Tidy)
    (worked : (work mark artifacts changes paths).actAt before = .ok after)
    (hp : package ∈ Partition.packages ⟨p.emitRoot, extension⟩ modules artifacts)
    (ha : a ∈ package.artifacts) (kind : a.isMap = false) :
    ∃ buffer, (EditBuffer.ofText a.content).overwriteAll (editsFor mark changes a) = .ok buffer ∧
      after.file? (p.finalPath package a).place = some buffer.render := by
  obtain ⟨cleared, -, wrote⟩ := Except.bind_eq_ok.mp worked
  rw [Work.tasks_eq, List.foldlM_append] at wrote
  obtain ⟨between, -, wrote⟩ := Except.bind_eq_ok.mp wrote
  obtain ⟨t, ht, same⟩ := exists_file_of_move mark destined
    ((mem_moves_iff planned).mpr ⟨package, hp, a, ha, rfl, rfl⟩)
  obtain ⟨u, hu, here, tree, text, supplied, there⟩ :=
    file?_of_last wrote ⟨t, ht, congrArg Path.place same⟩
  obtain ⟨buffer, accepted, rfl⟩ :=
    text_of_file planned destined names member tidy hp ha kind hu here supplied
  exact ⟨buffer, accepted, there⟩

end

/-! ## What stands at references -/

/-- At each reference of an edited artifact stands what was put in by its edit, or its mark, or what
stood there before. -/
theorem exists_standing {packages : List Package} (planned : p.plan packages = .ok changes)
    (ha : a ∈ packages.flatMap (·.artifacts)) (orderly : a.Orderly) {buffer : EditBuffer}
    (accepted : (EditBuffer.ofText a.content).overwriteAll (editsFor mark changes a) = .ok buffer) :
    ∃ paths, ∃ standing : Reference → String, p.finalPaths packages = .ok paths ∧
      (∀ r ∈ a.references, referenceEdit paths a.path r = .ok (followEdit paths a.path r)) ∧
      Spliced a.content (a.references.map fun r => ⟨r.range, standing r⟩) buffer.render ∧
      ∀ r ∈ a.references, standing r = (((followEdit paths a.path r).or (markEdit mark r)).map
        (·.replacement)).getD (r.range.textIn a.content) := by
  have once := (accepted_iff planned ha orderly).mp ⟨buffer, accepted⟩
  obtain ⟨paths, final, each, -, planned'⟩ := editsOf_of_plan planned ha
  have single : ∀ r ∈ a.references,
      followEdit paths a.path r = none ∨ markEdit mark r = none := by
    intro r hr
    refine Classical.byContradiction fun both => once r hr ?_
    rw [not_or] at both
    exact ⟨Reference.isAssigned_iff.mp ((referenceEdit_isSome_iff final (each r hr)).mp both.1),
      both.2⟩
  have perm : (editsFor mark changes a).Perm
      (a.references.filterMap fun r => (followEdit paths a.path r).or (markEdit mark r)) := by
    rw [editsFor, planned']
    exact ((List.mergeSort_perm _ _).append_right _).trans (perm_filterMap_or single)
  have own : ∀ r ∈ a.references, ∀ e,
      (followEdit paths a.path r).or (markEdit mark r) = some e → e.range = r.range := by
    intro r hr e he
    rcases Option.or_eq_some_iff.mp he with he | ⟨-, he⟩
    · exact range_of_referenceEdit (he ▸ each r hr)
    · exact range_of_markEdit he
  obtain ⟨ordered, stretches, perm', cut, rendered⟩ := EditBuffer.spliced_render accepted
  obtain ⟨standing, spliced, told⟩ := Spliced.exists_standing
    ⟨ordered, stretches, perm'.trans perm, cut, rendered⟩ orderly.fits orderly.apart own
  exact ⟨paths, standing, final, each, spliced, told⟩

/-- A reference to a packaged file gets an edit, by which it leads from one packaged file to the
other. -/
theorem exists_followEdit {packages : List Package} (output : p.outputRoot.Settled)
    (planned : p.plan packages = .ok changes) (final : p.finalPaths packages = .ok paths)
    (hp : package ∈ packages) (ha : a ∈ package.artifacts) {r : Reference}
    (each : referenceEdit paths a.path r = .ok (followEdit paths a.path r)) {target : Path}
    (ht : r.target = some target) {other : Package} (ho : other ∈ packages) {b : Artifact}
    (hb : b ∈ other.artifacts) (leads : b.path.components = target.components) :
    ∃ edit dir, followEdit paths a.path r = some edit ∧ Path.isExplicit edit.replacement = true ∧
      (p.finalPath package a).parent = some dir ∧
      (dir.join ⟨edit.replacement⟩).normalize = (p.finalPath other b).normalize := by
  have assigned : r.isAssigned packages = true := Reference.isAssigned_iff.mpr
    ⟨target, ht, other, ho, List.any_eq_true.mpr ⟨b, hb, Path.beq_iff.mpr leads⟩⟩
  obtain ⟨edit, found⟩ := Option.ne_none_iff_exists'.mp
    ((referenceEdit_isSome_iff final each).mpr assigned)
  obtain ⟨-, explicit, dir, target', parent, ht', other', ho', b', hb', leads', joined⟩ :=
    follows_of_referenceEdit output.absolute final hp ha (found ▸ each)
  cases ht.symm.trans ht'
  obtain rfl := eq_of_packaged planned (List.mem_flatMap.mpr ⟨other, ho, hb⟩)
    (List.mem_flatMap.mpr ⟨other', ho', hb'⟩) (leads.trans leads'.symm)
  -- the target may be in one package only, so that its place is the one that is led to
  have led := (get?_finalPaths final).mpr ⟨other, ho, b, hb, rfl, rfl⟩
  have led' := (get?_finalPaths final).mpr ⟨other', ho', b, hb', rfl, rfl⟩
  exact ⟨edit, dir, found, explicit, parent, by rw [joined, Option.some.inj (led'.symm.trans led)]⟩

end Planner

/-! ## The build -/

namespace Build
variable {e : Emitter} {d : Discovery} {o : BuildOptions} {s : Memory} {artifacts : List Artifact}
  {modules : List EmittedModule} {result : BuildResult} {package : Package} {a : Artifact}

/-- Writing the ignore list changes no file but one, and removes none. -/
theorem file?_of_listAt {names : List String} {tree tree' : FileTree String}
    (h : listAt o names tree = .ok tree') :
    (∀ k, tree.isFile k = true → tree'.isFile k = true) ∧
    ∀ k, (∀ location, o.ignore = some location → (o.projectRoot.join location.file).place ≠ k) →
      tree'.file? k = tree.file? k := by
  unfold listAt at h
  cases ignore : o.ignore with
  | none =>
    simp only [ignore] at h
    cases h
    exact ⟨fun _ h => h, fun _ _ => rfl⟩
  | some location =>
    simp only [ignore] at h
    obtain ⟨template, -, written⟩ := Except.bind_eq_ok.mp (Except.mapError_eq_ok.mp h)
    obtain ⟨rfl, vacant, -⟩ := writeAt_eq_ok written
    refine ⟨fun k file => (FileTree.isFile_put vacant _).mpr (.inr file), fun k elsewhere => ?_⟩
    exact FileTree.file?_put _ _ (elsewhere location rfl).symm

/-- After a build that succeeds, the packaged file of an artifact that is no position map is the
artifact's text with something else standing at its references, unless the ignore list takes its
place. A reference that is no builtin stands for the packaged file of its target, if there is one: from
the directory of the packaged file it is resolved to that file. Else it stands as it did. -/
theorem resolution_kept (form : s.tree.WellFormed) (emission : e.emitRoot.isAbsolute = true)
    (output : o.projectRoot.Settled) (wet : o.dryRun = false)
    (emitted : (e.emit (m := StateM Memory) (.ofTree s.tree)).1 = .ok artifacts)
    (found : (d.discover (m := StateM Memory) o.emitRoot (.ofTree s.tree)).1 = .ok modules)
    (ok : (run (m := StateM Memory) e d o s).1 = .ok result)
    (plain : ∀ package ∈ o.partition.packages modules artifacts,
      package.name ≠ "." ∧ package.name ≠ "..")
    (hp : package ∈ o.partition.packages modules artifacts) (ha : a ∈ package.artifacts)
    (kind : a.isMap = false) (orderly : a.Orderly)
    (kept : ∀ location, o.ignore = some location →
      (o.projectRoot.join location.file).place ≠ (o.planner.finalPath package a).place) :
    e.Tells s.tree a ∧ ∃ text, ∃ standing : Reference → String,
      (run (m := StateM Memory) e d o s).2.tree.file? (o.planner.finalPath package a).place =
        some text ∧
      Spliced a.content (a.references.map fun r => ⟨r.range, standing r⟩) text ∧
      ∀ r ∈ a.references, r.builtin = false →
        (∀ target, r.target = some target → ∀ other ∈ o.partition.packages modules artifacts,
          ∀ b ∈ other.artifacts, b.path.components = target.components →
          ∃ dir, (o.planner.finalPath package a).parent = some dir ∧
            ∀ resolver : Resolver, ∃ path,
              (resolver.resolveRelative (m := StateM Memory) dir (standing r)
                (run (m := StateM Memory) e d o s).2).1 = .project path ∧
              (path == o.planner.finalPath other b) = true) ∧
        (r.isAssigned (o.partition.packages modules artifacts) = false →
          standing r = r.range.textIn a.content) := by
  obtain ⟨artifacts', planned, paths, between, prepared, destined, worked, written, -⟩ :=
    run_eq_ok wet ok
  obtain ⟨modules', emitted', found', plan⟩ := prepare_eq_ok prepared
  cases emitted'.symm.trans emitted
  cases found'.symm.trans found
  obtain ⟨made, -⟩ := planned_eq_ok plan
  have shallow := Discovery.shallow_of_discover (s := .ofTree s.tree) form found
  have tidy : ∀ a ∈ artifacts, a.path.Tidy := by
    intro a ha
    obtain ⟨path, absolute⟩ := Emitter.exists_absolute_of_emit emitted a ha
    rw [absolute]
    exact Path.tidy_normalize (Path.isAbsolute_join emission path)
  have names : ∀ package ∈ o.partition.packages modules artifacts, IsName package.name :=
    fun package hp => Partition.isName_of_shallow shallow hp (plain package hp).1 (plain package hp).2
  have member : ∀ package ∈ o.partition.packages modules artifacts, ∀ a ∈ package.artifacts,
      o.planner.Member package a := fun package hp a ha =>
    Planner.member_of_shallow shallow (fun a ha => (tidy a ha).settled.normalForm) hp ha
  obtain ⟨buffer, accepted, there⟩ := Planner.file?_of_text made destined names member tidy worked hp
    ha kind
  obtain ⟨stays, elsewhere⟩ := file?_of_listAt written
  have packaged := List.mem_flatMap.mpr ⟨package, hp, ha⟩
  obtain ⟨final, standing, finals, each, spliced, told⟩ :=
    Planner.exists_standing made packaged orderly accepted
  refine ⟨Emitter.tells_of_emit emitted a (Partition.mem_of_mem_artifacts hp ha), buffer.render,
    standing, (elsewhere _ kept).trans there, spliced, fun r hr free => ?_⟩
  have unmarked : Apply.markEdit o.builtinMark r = none := by simp [Apply.markEdit, free]
  rw [told r hr, unmarked, Option.or_none]
  refine ⟨fun target ht other ho b hb leads => ?_, fun unassigned => ?_⟩
  · obtain ⟨edit, dir, planned', explicit, parent, joined⟩ :=
      Planner.exists_followEdit output made finals hp ha (each r hr) ht ho hb leads
    have settled := Planner.settled_finalPath output (names other ho) (member other ho b hb)
    have text : ((Planner.followEdit final a.path r).map (·.replacement)).getD
        (r.range.textIn a.content) = edit.replacement := by rw [planned']; rfl
    rw [text]
    refine ⟨dir, parent, fun resolver => ⟨_, resolver.resolveRelative_of_file explicit ?_, ?_⟩⟩
    · rw [joined, Path.place_normalize settled.absolute]
      exact stays _ (Planner.isFile_of_packaged made destined worked ho hb)
    · rw [joined]
      exact settled.normal
  · have none : Planner.followEdit final a.path r = none := by
      refine Classical.byContradiction fun some => ?_
      rw [(Planner.referenceEdit_isSome_iff finals (each r hr)).mp some] at unassigned
      cases unassigned
    rw [none]
    rfl

/-! ## One file -/

/-- A project of one file, which imports itself. -/
def loopedTree : FileTree String :=
  ⟨[(["p"], .directory), (["p", "build"], .directory), (["p", "build", "esm"], .directory),
    (["p", "build", "esm", "util.js"], .file "import \"./util\""),
    (["p", "build", "emit-report.json"],
      .file "\x7b\"artifacts\":[[\"util.js\",[[\"./util\",8,14]]]]\x7d")]⟩

def loopedEmitter : Emitter := Settings.standard.emitter ⟨"/p"⟩

def loopedOptions : BuildOptions := Settings.standard.options ⟨"/p"⟩

theorem looped_packaged : ∃ artifacts modules,
    (loopedEmitter.emit (m := StateM Memory) (.ofTree loopedTree)).1 = .ok artifacts ∧
    (Settings.standard.discovery.discover (m := StateM Memory) loopedOptions.emitRoot
      (.ofTree loopedTree)).1 = .ok modules ∧
    (∀ package ∈ loopedOptions.partition.packages modules artifacts,
      package.name ≠ "." ∧ package.name ≠ "..") ∧
    ∃ package ∈ loopedOptions.partition.packages modules artifacts, ∃ a ∈ package.artifacts,
      a.isMap = false ∧ a.Orderly ∧
      (loopedOptions.planner.finalPath package a).place = ["p", "util", "util.js"] ∧
      a.content = "import \"./util\"" ∧ ∃ r, a.references = [r] ∧ r.range.start = 8 ∧
        r.builtin = false ∧
        ∃ target, r.target = some target ∧ a.path.components = target.components := by
  have checked : (loopedEmitter.emit (m := StateM Memory) (.ofTree loopedTree)).1.toOption.any
      (fun artifacts => (Settings.standard.discovery.discover (m := StateM Memory)
        loopedOptions.emitRoot (.ofTree loopedTree)).1.toOption.any fun modules =>
      (loopedOptions.partition.packages modules artifacts).all (fun package =>
        package.name != "." && package.name != "..") &&
      (loopedOptions.partition.packages modules artifacts).any fun package =>
        package.artifacts.any fun a => !a.isMap && a.content == "import \"./util\"" && a.Orderly &&
        a.references.map (·.range) == [⟨8, 14⟩] &&
        (loopedOptions.planner.finalPath package a).place == ["p", "util", "util.js"] &&
        a.references.any fun r => !r.builtin && r.target.any (a.path == ·)) = true := by
    decide +kernel
  simp only [Option.any_eq_true, List.any_eq_true, List.all_eq_true, Bool.and_eq_true, bne_iff_ne,
    beq_iff_eq, Bool.not_eq_true', decide_eq_true_eq, Path.beq_iff] at checked
  obtain ⟨artifacts, emitted, modules, found, plain, package, hp, a, ha, checked, r, hr, free, target,
    ht, same⟩ := checked
  obtain ⟨⟨⟨⟨kind, content⟩, orderly⟩, ranges⟩, place⟩ := checked
  obtain ⟨only, whole, range⟩ := List.map_eq_singleton_iff.mp ranges
  obtain rfl := List.mem_singleton.mp (whole ▸ hr)
  exact ⟨artifacts, modules, Except.eq_ok_of_toOption emitted, Except.eq_ok_of_toOption found, plain,
    package, hp, a, ha, kind, orderly, place, content, r, whole, by rw [range], free, target, ht, same⟩

/-- The packaged file imports itself too, from where it is. -/
theorem resolution_kept_looped : ∃ artifacts modules result,
    (run (m := StateM Memory) loopedEmitter Settings.standard.discovery loopedOptions
      (.ofTree loopedTree)).1 = .ok result ∧
    ∃ package ∈ loopedOptions.partition.packages modules artifacts, ∃ a ∈ package.artifacts,
      loopedEmitter.Tells loopedTree a ∧ ∃ text, ∃ standing : Reference → String,
        (run (m := StateM Memory) loopedEmitter Settings.standard.discovery loopedOptions
          (.ofTree loopedTree)).2.tree.file? (loopedOptions.planner.finalPath package a).place = some text ∧
        Spliced a.content (a.references.map fun r => ⟨r.range, standing r⟩) text ∧
        ∃ r ∈ a.references, ∃ dir, (loopedOptions.planner.finalPath package a).parent = some dir ∧
          ∀ resolver : Resolver, ∃ path,
            (resolver.resolveRelative (m := StateM Memory) dir (standing r)
              (run (m := StateM Memory) loopedEmitter Settings.standard.discovery loopedOptions
                (.ofTree loopedTree)).2).1 = .project path ∧
            (path == loopedOptions.planner.finalPath package a) = true := by
  obtain ⟨artifacts, modules, emitted, found, plain, package, hp, a, ha, kind, orderly, place, -, r,
    whole, -, free, target, ht, same⟩ := looped_packaged
  have ok := Except.eq_ok_of_isSome
    (x := (run (m := StateM Memory) loopedEmitter Settings.standard.discovery loopedOptions
      (.ofTree loopedTree)).1) (by decide +kernel) ⟨[], [], ⟨[]⟩, none, none⟩
  have kept : ∀ location, loopedOptions.ignore = some location →
      (loopedOptions.projectRoot.join location.file).place ≠
        (loopedOptions.planner.finalPath package a).place := by
    intro location listed
    cases listed
    rw [place]
    decide +kernel
  obtain ⟨told, text, standing, there, spliced, each⟩ := resolution_kept (e := loopedEmitter)
    (d := Settings.standard.discovery) (o := loopedOptions) (s := .ofTree loopedTree)
    (FileTree.wellFormed_of_entries (by decide +kernel) (by decide +kernel)) (by decide +kernel)
    (by decide +kernel) rfl emitted found ok plain hp ha kind orderly kept
  have hr : r ∈ a.references := by simp [whole]
  exact ⟨artifacts, modules, _, ok, package, hp, a, ha, told, text, standing, there,
    spliced, r, hr, (each r hr free).1 target ht package hp a ha same⟩

/-- Options by which the ignore list goes where the packaged file does. -/
def coveringOptions : BuildOptions :=
  { loopedOptions with ignore := some ⟨⟨".gitignore"⟩, ⟨"util/util.js"⟩⟩ }

/-- An ignore list that goes where a packaged file does leaves nothing of its text. -/
theorem packaged_file_covered :
    loopedTree.WellFormed ∧ loopedEmitter.emitRoot.Settled ∧ coveringOptions.projectRoot.Settled ∧
    coveringOptions.dryRun = false ∧
    ∃ artifacts modules result,
      (loopedEmitter.emit (m := StateM Memory) (.ofTree loopedTree)).1 = .ok artifacts ∧
      (Settings.standard.discovery.discover (m := StateM Memory) coveringOptions.emitRoot
        (.ofTree loopedTree)).1 = .ok modules ∧
      (run (m := StateM Memory) loopedEmitter Settings.standard.discovery coveringOptions
        (.ofTree loopedTree)).1 = .ok result ∧
      (∀ package ∈ coveringOptions.partition.packages modules artifacts,
        package.name ≠ "." ∧ package.name ≠ "..") ∧
      ∃ package ∈ coveringOptions.partition.packages modules artifacts, ∃ a ∈ package.artifacts,
        a.isMap = false ∧ a.Orderly ∧
        (∃ r ∈ a.references, r.builtin = false ∧
          r.isAssigned (coveringOptions.partition.packages modules artifacts) = true) ∧
        ¬ ∃ text, ∃ standing : Reference → String,
          (run (m := StateM Memory) loopedEmitter Settings.standard.discovery coveringOptions
            (.ofTree loopedTree)).2.tree.file? (coveringOptions.planner.finalPath package a).place =
              some text ∧
          Spliced a.content (a.references.map fun r => ⟨r.range, standing r⟩) text := by
  obtain ⟨artifacts, modules, emitted, found, plain, package, hp, a, ha, kind, orderly, place, content,
    r, whole, start, free, target, ht, same⟩ := looped_packaged
  have ran : ((run (m := StateM Memory) loopedEmitter Settings.standard.discovery coveringOptions
        (.ofTree loopedTree)).1.toOption.isSome &&
      ((run (m := StateM Memory) loopedEmitter Settings.standard.discovery coveringOptions
        (.ofTree loopedTree)).2.tree.file? ["p", "util", "util.js"]).all
          (·.toList.head? == some '#')) = true := by
    decide +kernel
  obtain ⟨ok, covered⟩ := Bool.and_eq_true_iff.mp ran
  refine ⟨FileTree.wellFormed_of_entries (by decide +kernel) (by decide +kernel),
    by decide +kernel, by decide +kernel, rfl, artifacts, modules, _, emitted, found,
    Except.eq_ok_of_isSome ok ⟨[], [], ⟨[]⟩, none, none⟩, plain, package, hp, a, ha, kind, orderly,
    ⟨r, by simp [whole], free, Reference.isAssigned_iff.mpr ⟨target, ht, package, hp,
      List.any_eq_true.mpr ⟨a, ha, Path.beq_iff.mpr same⟩⟩⟩, ?_⟩
  rintro ⟨text, standing, there, spliced⟩
  rw [show coveringOptions.planner = loopedOptions.planner from rfl, place] at there
  rw [there] at covered
  have first := spliced.head?_eq (by simp [whole, start])
  rw [beq_iff_eq.mp covered, content] at first
  cases first

end Build
end Apportion
