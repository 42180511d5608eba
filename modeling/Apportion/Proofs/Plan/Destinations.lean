import Apportion.Proofs.Package
import Apportion.Proofs.Path.Normal
import Apportion.Proofs.Plan.Changes

/-!
Where artifacts go. Below the root of its package an artifact goes by names only
(`exists_names_within`), so that its destination lies at the root or below it
(`place_finalPath`).
-/
namespace Apportion

namespace Path

/-- Past a name or the root, components in normal form are names. -/
theorem NormalForm.names_after {front more : List Component} (h : NormalForm (front ++ more))
    (down : ∃ c ∈ front, c ≠ .parent) : ∃ names : List String, more = names.map .name := by
  obtain ⟨start, names, hs, -, e⟩ := h
  obtain ⟨c, hc, ne⟩ := down
  rcases List.append_eq_append_iff.mp e with ⟨rest, hstart, hmore⟩ | ⟨rest, hfront, hnames⟩
  · -- all of `front` is in front of the names, so that it is the root
    rcases hs with rfl | ⟨n, rfl⟩
    · have : rest = [] := by
        cases front with
        | nil => cases hc
        | cons d front => simp_all
      exact ⟨names, by rw [hmore, this, List.nil_append]⟩
    · have : c ∈ List.replicate n Component.parent := hstart ▸ List.mem_append_left _ hc
      exact absurd (List.eq_of_mem_replicate this) ne
  · obtain ⟨_, last, -, -, rfl⟩ := List.map_eq_append_iff.mp hnames
    exact ⟨last, rfl⟩

theorem place_of_relative {p : Path} {names : List String} (h : p.components = names.map .name) :
    p.place = names := by
  rw [place_eq, h, foldl_descend_names]
  simp

end Path

namespace Planner
variable {p : Planner} {package : Package} {a : Artifact}

/-- Where an artifact goes as seen from the root of its package. -/
def within (p : Planner) (package : Package) (a : Artifact) : Path :=
  (match package.source with
    | .file _ => none
    | .directory dir _ => a.path.stripStart (p.emitRoot.join dir)).getD ⟨a.path.fileName.getD ""⟩

theorem finalPath_eq (p : Planner) (package : Package) (a : Artifact) :
    p.finalPath package a = (p.packageRoot package).join (p.within package a) := rfl

/-- An artifact that can be told from its package's directory, if that is what the package is made
of. -/
structure Member (p : Planner) (package : Package) (a : Artifact) : Prop where
  normal : Path.NormalForm a.path.components
  inside : ∀ dir entry, package.source = .directory dir entry →
    a.path.startsWith (p.emitRoot.join dir) = true ∧
    ∃ c ∈ (p.emitRoot.join dir).components, c ≠ .parent

/-- The way from the root of a package to an artifact is relative, if its directory holds it. -/
theorem start_within (inside : ∀ dir entry, package.source = .directory dir entry →
    a.path.startsWith (p.emitRoot.join dir) = true ∧ (p.emitRoot.join dir).components ≠ []) :
    (p.within package a).start = none := by
  unfold within
  cases source : package.source with
  | file path =>
    cases name : a.path.fileName with
    | none => rfl
    | some s => exact Path.start_name (Path.of_fileName name).1
  | directory dir entry =>
    obtain ⟨below, ne⟩ := inside dir entry source
    rw [← Path.stripStart_isSome] at below
    obtain ⟨rest, strip⟩ := Option.isSome_iff_exists.mp below
    simp only [strip, Option.getD_some]
    exact (Path.components_of_stripStart strip).1 ne

theorem Member.below (h : p.Member package a) : ∀ dir entry, package.source = .directory dir entry →
    a.path.startsWith (p.emitRoot.join dir) = true ∧ (p.emitRoot.join dir).components ≠ [] := by
  intro dir entry source
  obtain ⟨below, c, hc, -⟩ := h.inside dir entry source
  exact ⟨below, List.ne_nil_of_mem hc⟩

theorem exists_names_within (h : p.Member package a) : (p.within package a).start = none ∧
    ∃ names : List String, (p.within package a).components = names.map .name := by
  refine ⟨start_within h.below, ?_⟩
  unfold within
  cases source : package.source with
  | file path =>
    cases name : a.path.fileName with
    | none => exact ⟨[], rfl⟩
    | some s => exact ⟨[s], Path.components_name (Path.of_fileName name).1⟩
  | directory dir entry =>
    obtain ⟨below, down⟩ := h.inside dir entry source
    rw [← Path.stripStart_isSome] at below
    obtain ⟨rest, strip⟩ := Option.isSome_iff_exists.mp below
    have normal := h.normal
    rw [(Path.components_of_stripStart strip).2] at normal
    simp only [strip, Option.getD_some]
    exact normal.names_after down

theorem components_finalPath (h : p.Member package a) : (p.finalPath package a).components =
    (p.packageRoot package).components ++ (p.within package a).components := by
  have start := (exists_names_within h).1
  rw [finalPath_eq, Path.components_join_relative _ start]

theorem components_within (h : p.Member package a) :
    (p.within package a).components = (p.within package a).place.map .name := by
  obtain ⟨-, names, e⟩ := exists_names_within h
  rw [Path.place_of_relative e, e]

theorem place_finalPath (h : p.Member package a) : (p.finalPath package a).place =
    (p.packageRoot package).place ++ (p.within package a).place := by
  have below := components_finalPath h
  rw [components_within h] at below
  exact Path.place_append_names below

/-! ## Members -/

section
variable {extension : String} {modules : List EmittedModule} {artifacts : List Artifact}

theorem member_of_settled (emission : p.emitRoot.Settled)
    (settled : ∀ a ∈ artifacts, a.path.Settled)
    (hp : package ∈ Partition.packages ⟨p.emitRoot, extension⟩ modules artifacts)
    (ha : a ∈ package.artifacts) : p.Member package a := by
  refine ⟨(settled a (Partition.mem_of_mem_artifacts hp ha)).normalForm, fun dir entry source => ?_⟩
  refine ⟨Partition.startsWith_of_mem hp source ha, .root, ?_, by simp⟩
  obtain ⟨more, e⟩ := Path.isAbsolute_iff.mp (Path.isAbsolute_join emission.absolute dir)
  rw [e]
  exact List.mem_cons_self

theorem member_of_shallow (shallow : ∀ module ∈ modules, module.Shallow)
    (normal : ∀ a ∈ artifacts, Path.NormalForm a.path.components)
    (hp : package ∈ Partition.packages ⟨p.emitRoot, extension⟩ modules artifacts)
    (ha : a ∈ package.artifacts) : p.Member package a := by
  refine ⟨normal a (Partition.mem_of_mem_artifacts hp ha), fun dir entry source => ?_⟩
  refine ⟨Partition.startsWith_of_mem hp source ha, ?_⟩
  obtain ⟨s, e⟩ := shallow _ (Partition.source_mem hp)
  rw [source] at e
  have start : dir.start = none := Path.start_of_components_name e
  rw [Path.components_join_relative _ start, show dir.components = [.name s] from e]
  exact ⟨.name s, by simp, by simp⟩

end

/-! ## Where a plan writes -/

def targets (p : Planner) (packages : List Package) : List Path :=
  packages.map (fun package => (p.packageRoot package).join ⟨p.manifestName⟩) ++
    packages.flatMap fun package => package.artifacts.map (p.finalPath package)

theorem writes_perm {changes : ChangeSet} (planned : p.plan packages = .ok changes) :
    changes.writes.Perm (p.targets packages) := by
  obtain ⟨-, -, manifests, paths, final, moves⟩ := plan_eq_ok planned
  obtain ⟨-, perm⟩ := PathMap.of_ofPairs (Except.mapError_eq_ok.mp final)
  have second := perm.map (·.2)
  rw [List.map_flatMap] at second
  simp only [List.map_map, Function.comp_def] at second
  rw [ChangeSet.writes, targets, manifests, moves, List.map_map]
  exact List.Perm.append_left _ second

end Planner

/-- Changes that write only in the directories that they make, and whose moves have destinations of
their own. -/
structure ChangeSet.Contained (changes : ChangeSet) : Prop where
  destined : ∃ paths, changes.destinations = .ok paths
  below : ∀ path ∈ changes.writes, ∃ root ∈ changes.directories, root.place <+: path.place

theorem Planner.destinations_of_plan {p : Planner} {packages : List Package} {changes : ChangeSet}
    (planned : p.plan packages = .ok changes) : ∃ paths, changes.destinations = .ok paths := by
  obtain ⟨-, -, -, paths, final, moves⟩ := plan_eq_ok planned
  rw [ChangeSet.destinations, moves]
  exact PathMap.ofPairs_entries (Except.mapError_eq_ok.mp final)

/-- A plan writes manifests and artifacts in the roots of their packages, if that is where manifests
are. -/
theorem Planner.contained_of_inside {p : Planner} {packages : List Package} {changes : ChangeSet}
    (planned : p.plan packages = .ok changes)
    (inside : ∀ package ∈ packages,
      (p.packageRoot package).place <+: ((p.packageRoot package).join ⟨p.manifestName⟩).place)
    (member : ∀ package ∈ packages, ∀ a ∈ package.artifacts, p.Member package a) :
    changes.Contained := by
  refine ⟨destinations_of_plan planned, fun path hpath => ?_⟩
  rw [(plan_eq_ok planned).2.1]
  rcases List.mem_append.mp ((writes_perm planned).mem_iff.mp hpath) with hw | hw
  · obtain ⟨package, hp, rfl⟩ := List.mem_map.mp hw
    exact ⟨_, List.mem_map_of_mem hp, inside package hp⟩
  · obtain ⟨package, hp, hw⟩ := List.mem_flatMap.mp hw
    obtain ⟨a, ha, rfl⟩ := List.mem_map.mp hw
    refine ⟨_, List.mem_map_of_mem hp, ?_⟩
    rw [place_finalPath (member package hp a ha)]
    exact List.prefix_append _ _

theorem Planner.contained_of_plan {p : Planner} {packages : List Package} {changes : ChangeSet}
    (planned : p.plan packages = .ok changes) (plain : IsName p.manifestName)
    (member : ∀ package ∈ packages, ∀ a ∈ package.artifacts, p.Member package a) :
    changes.Contained := by
  refine contained_of_inside planned (fun package _ => ?_) member
  rw [Path.place_join_name _ plain]
  exact List.prefix_append _ _

end Apportion
