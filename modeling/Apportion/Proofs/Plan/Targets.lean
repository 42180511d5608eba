import Apportion.Build
import Apportion.Proofs.Build.Work
import Apportion.Proofs.Plan.Lookup

/-!
Targets that do not matter. A plan follows a reference only to packaged artifacts, so that nothing changes
if targets are forgotten that are none of them: packages are formed as before
(`Partition.packages_pruned`), the plan is the same (`Build.planned_pruned`), and so is all work
(`Apply.work_pruned`).
-/
namespace Apportion

def Reference.pruned (keep : Path → Bool) (r : Reference) : Reference :=
  { r with target := r.target.filter keep }

def Artifact.pruned (keep : Path → Bool) (a : Artifact) : Artifact :=
  { a with references := a.references.map (·.pruned keep) }

def Package.pruned (keep : Path → Bool) (p : Package) : Package :=
  { p with artifacts := p.artifacts.map (·.pruned keep) }

variable (keep : Path → Bool)

@[simp] theorem Artifact.path_pruned (a : Artifact) : (a.pruned keep).path = a.path := rfl

@[simp] theorem Artifact.isCode_pruned (a : Artifact) : (a.pruned keep).isCode = a.isCode := rfl

theorem filter_pruned (artifacts : List Artifact) (f : Path → Bool) :
    (artifacts.map (·.pruned keep)).filter (fun a => f a.path) =
      (artifacts.filter fun a => f a.path).map (·.pruned keep) := by
  rw [List.filter_map]
  exact congrArg _ (List.filter_congr fun a _ => rfl)

/-! ## Packages -/

namespace Partition
variable (part : Partition) (artifacts : List Artifact)

theorem exports_pruned (canonical : Option Path) (members : List (Path × Artifact)) :
    part.exports canonical (members.map fun m => (m.1, m.2.pruned keep)) =
      part.exports canonical members := by
  rw [exports, exports, List.filter_map, List.map_map]
  have chosen : members.filter ((fun m => m.2.isCode) ∘ fun m => (m.1, m.2.pruned keep)) =
      members.filter fun m => m.2.isCode := List.filter_congr fun m _ => m.2.isCode_pruned keep
  exact congrArg (fun l => ExportTable.ofList (l.map fun m => part.exportOf canonical m.1)) chosen

theorem ofFile_pruned (path : Path) :
    part.ofFile path (artifacts.map (·.pruned keep)) = (part.ofFile path artifacts).pruned keep := by
  have members := filter_pruned keep artifacts fun q => (part.related path).any (· == q)
  simp only [ofFile, Package.pruned, members, List.map_map]
  have listed := part.exports_pruned keep (some ⟨path.fileName.getD ""⟩)
    ((artifacts.filter fun a => (part.related path).any (· == a.path)).map fun a =>
      (⟨a.path.fileName.getD ""⟩, a))
  rw [List.map_map] at listed
  rw [← listed]
  rfl

theorem ofDirectory_pruned (directory : Path) (entry : Option Path) :
    part.ofDirectory directory entry (artifacts.map (·.pruned keep)) =
      (part.ofDirectory directory entry artifacts).pruned keep := by
  have members := filter_pruned keep artifacts fun q =>
    q.startsWith (part.emitRoot.join directory)
  simp only [ofDirectory, Package.pruned, members]
  have listed := part.exports_pruned keep
    (entry.map fun e => (e.stripStart directory).getD e)
    ((artifacts.filter fun a => a.path.startsWith (part.emitRoot.join directory)).filterMap fun a =>
      (a.path.stripStart (part.emitRoot.join directory)).map fun relative => (relative, a))
  rw [List.map_filterMap] at listed
  rw [← listed, List.filterMap_map]
  have each : ∀ a : Artifact, ((a.path.stripStart (part.emitRoot.join directory)).map fun relative =>
      (relative, a)).map (fun m => (m.1, m.2.pruned keep)) =
      (a.path.stripStart (part.emitRoot.join directory)).map fun relative =>
        (relative, a.pruned keep) := fun a => Option.map_map _ _ _
  simp only [each]
  rfl

theorem packages_pruned (modules : List EmittedModule) :
    part.packages modules (artifacts.map (·.pruned keep)) =
      (part.packages modules artifacts).map (·.pruned keep) := by
  rw [packages, packages, List.map_map]
  refine List.map_congr_left fun module _ => ?_
  cases module with
  | file path => exact part.ofFile_pruned keep artifacts path
  | directory dir entry => exact part.ofDirectory_pruned keep artifacts dir entry

end Partition

variable {keep : Path → Bool}

/-! ## The plan -/

namespace Planner
variable {p : Planner} {packages : List Package} {paths : PathMap}

theorem referenceEdit_pruned (known : ∀ q, (paths.get? q).isSome = true → keep q = true)
    (artifact : Path) (r : Reference) :
    referenceEdit paths artifact (r.pruned keep) = referenceEdit paths artifact r := by
  have same : (r.target.filter keep).bind paths.get? = r.target.bind paths.get? := by
    cases r.target with
    | none => rfl
    | some q =>
      by_cases kept : keep q = true
      · rw [Option.filter_some, if_pos kept]
      · have nowhere : paths.get? q = none :=
          Option.not_isSome_iff_eq_none.mp fun some => kept (known q some)
        rw [Option.filter_some, if_neg kept, Option.bind_some, nowhere]
        rfl
  rw [referenceEdit, referenceEdit, Reference.pruned, same]

theorem revisions_pruned (known : ∀ q, (paths.get? q).isSome = true → keep q = true) (a : Artifact) :
    revisions paths (a.pruned keep) = revisions paths a := by
  have edits : (a.pruned keep).references.mapM (referenceEdit paths a.path) =
      a.references.mapM (referenceEdit paths a.path) := by
    rw [Artifact.pruned, List.mapM_map]
    refine congrArg (fun f => List.mapM f a.references) (funext fun r => ?_)
    exact referenceEdit_pruned known a.path r
  have changed : referenceChange paths (a.pruned keep) = referenceChange paths a := by
    unfold referenceChange
    rw [a.path_pruned, edits]
  rw [revisions, revisions, changed]
  rfl

theorem checkRoots_pruned (emitted : List Path) (seen : List (Path × String)) :
    p.checkRoots emitted seen (packages.map (·.pruned keep)) = p.checkRoots emitted seen packages := by
  induction packages generalizing seen with
  | nil => rfl
  | cons package rest ih =>
    simp only [List.map_cons, checkRoots, ih]
    rfl

theorem artifacts_pruned (packages : List Package) :
    (packages.map (·.pruned keep)).flatMap (·.artifacts) =
      (packages.flatMap (·.artifacts)).map (·.pruned keep) := by
  rw [List.flatMap_map, List.map_flatMap]
  rfl

theorem plan_pruned (known : ∀ package ∈ packages, ∀ a ∈ package.artifacts, ∀ q : Path,
      a.path.components = q.components → keep q = true) :
    p.plan (packages.map (·.pruned keep)) = p.plan packages := by
  have emitted : p.emitted (packages.map (·.pruned keep)) = p.emitted packages := by
    simp only [Planner.emitted, List.flatMap_map, Package.pruned, List.map_map]
    rfl
  have finals : p.finalPaths (packages.map (·.pruned keep)) = p.finalPaths packages := by
    simp only [finalPaths, List.flatMap_map, Package.pruned, List.map_map]
    rfl
  have layout : (packages.map (·.pruned keep)).flatMap p.layout = packages.flatMap p.layout := by
    rw [List.flatMap_map]
    rfl
  unfold plan
  rw [emitted, checkRoots_pruned, finals, artifacts_pruned, layout]
  cases final : p.finalPaths packages with
  | error cause => rfl
  | ok paths =>
    have known' : ∀ q, (paths.get? q).isSome = true → keep q = true := by
      intro q some
      obtain ⟨target, led⟩ := Option.isSome_iff_exists.mp some
      obtain ⟨package, hp, a, ha, same, -⟩ := (get?_finalPaths final).mp led
      exact known package hp a ha q same
    have revised : ((packages.flatMap (·.artifacts)).map (·.pruned keep)).mapM (revisions paths) =
        (packages.flatMap (·.artifacts)).mapM (revisions paths) := by
      rw [List.mapM_map]
      exact congrArg (fun f => List.mapM f _) (funext fun a => revisions_pruned known' a)
    refine congrArg (p.checkRoots (p.emitted packages) [] packages >>= ·) (funext fun _ => ?_)
    exact congrArg (fun made => made >>= fun revisions => pure (ChangeSet.ofList
      (packages.flatMap p.layout ++ revisions.flatten ++
        paths.entries.map fun e => .move e.1 e.2))) revised

end Planner

/-- Forgetting targets that are no packaged artifacts does not change what is planned. -/
theorem Build.planned_pruned {o : BuildOptions} {modules : List EmittedModule}
    {artifacts : List Artifact} (known : ∀ a ∈ artifacts, ∀ q : Path,
      a.path.components = q.components → keep q = true) :
    planned o modules (artifacts.map (·.pruned keep)) = planned o modules artifacts := by
  have known' : ∀ package ∈ o.partition.packages modules artifacts, ∀ a ∈ package.artifacts,
      ∀ q : Path, a.path.components = q.components → keep q = true := fun package hp a ha =>
    known a (Partition.mem_of_mem_artifacts hp ha)
  have plan := Planner.plan_pruned (p := o.planner) known'
  have summaries : ((o.partition.packages modules artifacts).map (·.pruned keep)).map
      (summarize o.planner) = (o.partition.packages modules artifacts).map (summarize o.planner) := by
    rw [List.map_map]
    refine List.map_congr_left fun package _ => ?_
    simp [summarize, Package.pruned, Planner.packageRoot]
  have left : unassigned ((o.partition.packages modules artifacts).map (·.pruned keep))
      (artifacts.map (·.pruned keep)) = unassigned (o.partition.packages modules artifacts) artifacts := by
    simp only [unassigned, List.flatMap_map, Package.pruned, List.map_map]
    rfl
  simp only [planned, o.partition.packages_pruned, plan, summaries, left]

/-! ## The work -/

namespace Apply
variable {mark : String} {artifacts : List Artifact} {changes : ChangeSet} {paths : PathMap}

theorem artifactAt_pruned (path : Path) :
    artifactAt (artifacts.map (·.pruned keep)) path =
      (artifactAt artifacts path).map (·.pruned keep) := by
  simp only [artifactAt, List.filter_map, List.getLast?_map]
  rfl

theorem editsFor_pruned (a : Artifact) : editsFor mark changes (a.pruned keep) =
    editsFor mark changes a := by
  simp only [editsFor, Artifact.pruned, List.filterMap_map]
  rfl

def Revision.pruned (keep : Path → Bool) (r : Revision) : Revision :=
  { r with artifact := r.artifact.pruned keep }

theorem revisions_pruned : revisions mark (artifacts.map (·.pruned keep)) changes paths =
    (revisions mark artifacts changes paths).map (·.pruned keep) := by
  rw [revisions, revisions, List.filterMap_map, List.map_filterMap]
  refine List.filterMap_congr fun a _ => ?_
  simp only [Function.comp_apply, editsFor_pruned, a.path_pruned]
  cases paths.get? a.path with
  | none => rfl
  | some target =>
    simp only
    split <;> split <;> first | rfl | contradiction

theorem ownedMap_pruned (a : Artifact) :
    ownedMap (artifacts.map (·.pruned keep)) paths (a.pruned keep) =
      (ownedMap artifacts paths a).map fun (path, map, target) => (path, map.pruned keep, target) := by
  unfold ownedMap
  rw [show (a.pruned keep).map? = a.map? from rfl]
  cases a.map? with
  | none => rfl
  | some path =>
    simp only [Option.bind_eq_bind, Option.bind_some, artifactAt_pruned]
    cases artifactAt artifacts path with
    | none => rfl
    | some map => cases paths.get? path <;> rfl

theorem copyTask_pruned (source target : Path) :
    copyTask (artifacts.map (·.pruned keep)) changes source target =
      copyTask artifacts changes source target := by
  rw [copyTask, copyTask, artifactAt_pruned]
  cases artifactAt artifacts source <;> rfl

theorem companions_pruned : companions mark (artifacts.map (·.pruned keep)) changes paths =
    (companions mark artifacts changes paths).map fun (r, path, map, target) =>
      (r.pruned keep, path, map.pruned keep, target) := by
  rw [companions, companions, revisions_pruned, List.filterMap_map, List.map_filterMap]
  refine List.filterMap_congr fun r _ => ?_
  simp only [Function.comp_apply, Revision.pruned, ownedMap_pruned, Option.map_map]
  rfl

theorem remade_pruned : remade mark (artifacts.map (·.pruned keep)) changes paths =
    remade mark artifacts changes paths := by
  rw [remade, remade, revisions_pruned, companions_pruned, List.map_map, List.map_map]
  rfl

/-- What is done does not depend on where references lead. -/
theorem work_pruned : work mark (artifacts.map (·.pruned keep)) changes paths =
    work mark artifacts changes paths := by
  have revised : (revisions mark (artifacts.map (·.pruned keep)) changes paths).map Revision.task =
      (revisions mark artifacts changes paths).map Revision.task := by
    rw [revisions_pruned, List.map_map]
    rfl
  have composed : (companions mark (artifacts.map (·.pruned keep)) changes paths).map
        (fun (r, path, map, target) => compositionTask changes r path map target) =
      (companions mark artifacts changes paths).map
        fun (r, path, map, target) => compositionTask changes r path map target := by
    rw [companions_pruned, List.map_map]
    rfl
  have copied : (work mark (artifacts.map (·.pruned keep)) changes paths).copies =
      (work mark artifacts changes paths).copies := by
    rw [copies_work, copies_work, Apply.copied, Apply.copied, remade_pruned]
    exact List.map_congr_left fun move _ => copyTask_pruned move.1 move.2
  exact Eq.mpr (Work.mk.injEq ..) ⟨rfl, rfl, revised, composed, copied⟩

end Apply
end Apportion
