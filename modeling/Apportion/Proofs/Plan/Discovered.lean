import Apportion.Proofs.Path.Stems
import Apportion.Proofs.Plan.Maps

/-!
Plans for a discovered tree. Modules that stand in one tree claim an artifact together only if they make
packages of one name (`name_eq_of_shared`), and packages with different roots send no two artifacts to
one place (`root_eq_of_destination`). So once the roots pass their check every artifact belongs to one
package and has a destination of its own, and a plan fails on a root, on references that overlap or on a
position map that cannot be read, and on nothing else (`partition_of_discover`).
-/
namespace Apportion
open Apportion.Path

/-! ## Errors -/

namespace PlanError

/-- Errors about which package an artifact belongs to and where it goes. -/
def isAboutAssignment : PlanError → Bool
  | duplicateAssignment _ | duplicateDestination _ _ _ | missingFinalPath _ => true
  | _ => false

/-- Errors about the directories of packages. -/
def isAboutRoots : PlanError → Bool
  | duplicateRoot _ _ _ | rootOverlapsEmission _ _ _ => true
  | _ => false

end PlanError

namespace Planner
variable {p : Planner} {paths : PathMap} {a : Artifact} {e : PlanError}

/-- An artifact with a destination is revised, or its references or its map are at fault. -/
theorem not_about_assignment_of_revisions {dir : Path} (goes : finalDirectory paths a.path = .ok dir)
    (h : revisions paths a = .error e) : e.isAboutAssignment = false := by
  have never {e : PlanError} : finalDirectory paths a.path ≠ .error e := by simp [goes]
  have references {e : PlanError} (h : referenceChange paths a = .error e) :
      e.isAboutAssignment = false := by
    rcases Except.bind_eq_error.mp h with h | ⟨found, -, h⟩
    · obtain ⟨r, -, h⟩ := Except.exists_of_mapM_error h
      unfold referenceEdit at h
      split at h
      · cases h
      · rw [goes] at h
        cases h
    · simp only at h
      split at h
      · cases h
      · split at h <;> cases h
        rfl
  have sources {e : PlanError} (h : sourceChange paths a = .error e) :
      e.isAboutAssignment = false := by
    rcases Except.bind_eq_error.mp h with h | ⟨map, -, h⟩
    · cases parsed : PositionMap.parse a.content with
      | ok map =>
        rw [parsed] at h
        cases h
      | error cause =>
        rw [parsed] at h
        cases h
        rfl
    · rcases Except.bind_eq_error.mp h with h | ⟨dir, -, h⟩
      · exact absurd h never
      · cases h
  rcases Except.bind_eq_error.mp h with h | ⟨change, -, h⟩
  · exact references h
  · simp only at h
    split at h
    · rcases Except.bind_eq_error.mp h with h | ⟨change, -, h⟩
      · exact sources h
      · cases h
    · cases h

theorem about_roots_of_checkRoots {emitted : List Path} {seen : List (Path × String)}
    {packages : List Package} (h : p.checkRoots emitted seen packages = .error e) :
    e.isAboutRoots = true := by
  induction packages generalizing seen with
  | nil => cases h
  | cons package rest ih =>
    simp only [checkRoots] at h
    split at h
    · cases h
      rfl
    · split at h
      · cases h
        rfl
      · exact ih h

end Planner

/-! ## Roots -/

namespace Planner
variable {p : Planner} {x y : Package}

/-- A package named by a dot has the output root itself, which is a dot if that has no text. -/
theorem components_packageRoot_dot (dot : x.name = ".") :
    (p.packageRoot x).components = p.outputRoot.components ∧ p.outputRoot.components ≠ [] ∨
      p.outputRoot.components = [] ∧ (p.packageRoot x).components = [.current] := by
  rw [packageRoot, dot]
  by_cases empty : p.outputRoot.text = ""
  · right
    rw [components_of_text_empty empty, join]
    simp only [empty]
    exact ⟨trivial, by decide⟩
  · left
    refine ⟨?_, fun nil => empty (text_of_components_nil nil)⟩
    rw [components_join (by decide) (.inl empty)]
    exact List.append_nil _

/-- Any other package has a root right below the output root or right above it. -/
theorem components_packageRoot (h : IsName x.name ∨ x.name = "..") : ∃ c,
    (p.packageRoot x).components = p.outputRoot.components ++ [c] ∧ c ≠ .current := by
  rcases h with name | dots
  · exact ⟨_, components_join_name _ name, by simp⟩
  · refine ⟨.parent, ?_, by simp⟩
    rw [packageRoot, dots, components_join_relative _ (by decide)]
    rfl

end Planner

/-! ## Artifacts of standing modules -/

namespace Planner
variable {d : Discovery} {p : Planner} {extension : String} {tree : FileTree String}
  {modules : List EmittedModule} {artifacts : List Artifact} {package x y : Package} {a b : Artifact}

/-- How a package gets an artifact of a tree: from beside its code file, or from below its directory. -/
inductive Lands (p : Planner) (package : Package) (a : Artifact) : EmittedModule → Prop
  | beside {file : Path} {name extension : String} (single : file.components = [.name name])
      (sibling : extension ∈ file.siblingExtensions)
      (whole : a.path.components = p.emitRoot.components ++ [.name (file.stem ++ extension)])
      (goes : (p.finalPath package a).components =
        (p.packageRoot package).components ++ [.name (file.stem ++ extension)]) :
      Lands p package a (.file file)
  | below {dir : Path} {entry : Option Path} {name : String} {inside : List Component}
      (single : dir.components = [.name name]) (some : inside ≠ [])
      (whole : a.path.components = p.emitRoot.components ++ .name name :: inside)
      (goes : (p.finalPath package a).components = (p.packageRoot package).components ++ inside) :
      Lands p package a (.directory dir entry)

/-- Where the artifacts of a module's package lie. -/
def base (p : Planner) : EmittedModule → List Component
  | .file _ => p.emitRoot.components
  | .directory dir _ => p.emitRoot.components ++ dir.components

/-- An artifact keeps the way that leads to it from where its module is. -/
theorem Lands.exists_inside {module : EmittedModule} (h : p.Lands package a module) :
    ∃ inside, inside ≠ [] ∧ a.path.components = p.base module ++ inside ∧
      (p.finalPath package a).components = (p.packageRoot package).components ++ inside := by
  cases h with
  | beside _ _ whole goes => exact ⟨_, by simp, whole, goes⟩
  | below single some whole goes => exact ⟨_, some, by rw [whole, base, single]; simp, goes⟩

section
variable (stands : ∀ module ∈ modules, d.Stands tree p.emitRoot module)
  (files : ∀ a ∈ artifacts, tree.isFile a.path.place = true)
include stands files

theorem lands_of_stands (hp : package ∈ Partition.packages ⟨p.emitRoot, extension⟩ modules artifacts)
    (ha : a ∈ package.artifacts) : p.Lands package a package.source := by
  have named : ∀ module ∈ modules, module.Named := fun module hm => (stands module hm).shallow.named
  have source := Partition.source_mem hp
  obtain ⟨mem, owns⟩ := (Partition.mem_artifacts_iff named hp).mp ha
  have placed : p.Placed package a := by
    refine placed_of_inside (named _ source) fun dir entry is => ?_
    refine ⟨Partition.startsWith_of_mem hp is ha, ?_⟩
    rw [is] at source
    have start : dir.start = none := (named _ source).start
    rw [components_join_relative _ start]
    cases stands _ source with
    | directory single => simp [single]
  unfold Placed at placed
  have here := stands _ source
  cases is : package.source with
  | file file =>
    rw [is] at here owns
    simp only [is] at placed
    cases here with
    | @file name _ single =>
      obtain ⟨sibling, hs, same⟩ := owns
      have last : file.fileName = some name := by simp [fileName, single]
      have whole := List.mem_map_of_mem (f := Path.components) hs
      rw [Partition.components_related (by rw [start_of_components_name single]) last] at whole
      obtain ⟨ext, he, whole⟩ := List.mem_map.mp whole
      rw [same, single] at whole
      have own : a.path.fileName = some (file.stem ++ ext) := by
        rw [fileName, ← whole]
        simp
      rw [own] at placed
      exact .beside single he (by rw [← whole]; simp) placed
  | directory dir entry =>
    rw [is] at here
    simp only [is] at placed
    cases here with
    | @directory name _ single there =>
      obtain ⟨inside, whole, goes⟩ := placed
      rw [single] at whole
      refine .below single ?_ (by rw [whole]; simp) goes
      -- no file of the tree is where the directory is
      rintro rfl
      have beside : a.path.components = p.emitRoot.components ++ [name].map .name := by
        rw [whole]
        simp
      have place := place_append_names beside
      have file := files a mem
      rw [place, FileTree.isFile_iff] at file
      obtain ⟨content, file⟩ := file
      rw [FileTree.isDirectory_iff, file] at there
      cases there

/-- Modules that claim one artifact make packages of one name. -/
theorem name_eq_of_shared (maps : ".map" ∉ d.codeExtensions)
    (hx : x ∈ Partition.packages ⟨p.emitRoot, extension⟩ modules artifacts)
    (hy : y ∈ Partition.packages ⟨p.emitRoot, extension⟩ modules artifacts)
    (ha : a ∈ x.artifacts) (hb : b ∈ y.artifacts) (same : a.path.components = b.path.components) :
    x.name = y.name := by
  have code {file : Path} {name : String} (mem : .file file ∈ modules)
      (single : file.components = [.name name]) :
      file.fileName = some name ∧ file.extension ≠ ".map" := by
    have last : file.fileName = some name := by simp [fileName, single]
    cases stands _ mem with
    | file single' _ code =>
      rw [single] at single'
      cases single'
      refine ⟨last, fun map => maps ?_⟩
      rw [Path.extension, last] at map
      simpa [show extensionOf _ = ".map" from map] using code
  have sx := Partition.source_mem hx
  have sy := Partition.source_mem hy
  have lx := lands_of_stands stands files hx ha
  have ly := lands_of_stands stands files hy hb
  rw [Partition.name_eq hx, Partition.name_eq hy]
  generalize x.source = module at sx lx
  generalize y.source = other at sy ly
  cases lx with
  | beside single sibling whole _ =>
    cases ly with
    | beside single' sibling' whole' _ =>
      rw [whole, whole', List.append_cancel_left_eq] at same
      have shared := Component.name.inj (List.cons.inj same).1
      exact stem_eq_of_shared (code sx single).1 (code sy single').1 (code sx single).2
        (code sy single').2 sibling sibling' shared
    | below _ some whole' _ =>
      -- what lies beside the directory does not lie below it
      rw [whole, whole', List.append_cancel_left_eq] at same
      exact absurd (List.cons.inj same).2.symm some
  | below single some whole _ =>
    cases ly with
    | beside _ _ whole' _ =>
      rw [whole, whole', List.append_cancel_left_eq] at same
      exact absurd (List.cons.inj same).2 some
    | below single' _ whole' _ =>
      rw [whole, whole', List.append_cancel_left_eq] at same
      have names := Component.name.inj (List.cons.inj same).1
      simp [EmittedModule.packageName, fileName, single, single', names]

/-- Packages that send artifacts to one place have the same root. -/
theorem root_eq_of_destination
    (hx : x ∈ Partition.packages ⟨p.emitRoot, extension⟩ modules artifacts)
    (hy : y ∈ Partition.packages ⟨p.emitRoot, extension⟩ modules artifacts)
    (ha : a ∈ x.artifacts) (hb : b ∈ y.artifacts)
    (same : (p.finalPath x a).components = (p.finalPath y b).components) :
    (p.packageRoot x).components = (p.packageRoot y).components := by
  have shallow : ∀ module ∈ modules, module.Shallow := fun module hm => (stands module hm).shallow
  -- a package named by a dot is made of a code file, so that its artifacts lie in its root itself
  have dot {x y : Package} {a b : Artifact}
      (hx : x ∈ Partition.packages ⟨p.emitRoot, extension⟩ modules artifacts)
      (hy : y ∈ Partition.packages ⟨p.emitRoot, extension⟩ modules artifacts)
      (ha : a ∈ x.artifacts) (hb : b ∈ y.artifacts) (dot : x.name = ".")
      (other : IsName y.name ∨ y.name = "..") :
      (p.finalPath x a).components ≠ (p.finalPath y b).components := by
    intro same
    obtain ⟨inside, some, -, goes⟩ := (lands_of_stands stands files hy hb).exists_inside
    obtain ⟨c, root, ne⟩ := components_packageRoot (p := p) other
    have lx := lands_of_stands stands files hx ha
    have name := Partition.name_eq hx
    generalize x.source = module at lx name
    cases lx with
    | @below dir entry s inside' single some' whole goes' =>
      have last : dir.fileName = Option.some s := by simp [fileName, single]
      rw [dot, EmittedModule.packageName, last] at name
      exact absurd name.symm (of_fileName last).1.2.1
    | beside _ _ _ goes' =>
      rw [goes', goes, root] at same
      rcases components_packageRoot_dot (p := p) dot with ⟨here, -⟩ | ⟨top, here⟩
      · rw [here, List.append_assoc, List.append_cancel_left_eq] at same
        exact some (List.cons.inj same).2.symm
      · rw [here, top] at same
        exact ne (List.cons.inj same).1.symm
  have other {z : Package} (hz : z ∈ Partition.packages ⟨p.emitRoot, extension⟩ modules artifacts)
      (ne : z.name ≠ ".") : IsName z.name ∨ z.name = ".." :=
    (Partition.name_cases shallow hz).imp_right fun dots => dots.resolve_left ne
  by_cases dx : x.name = "." <;> by_cases dy : y.name = "."
  · rw [packageRoot, packageRoot, dx, dy]
  · exact absurd same (dot hx hy ha hb dx (other hy dy))
  · exact absurd same.symm (dot hy hx hb ha dy (other hx dx))
  · obtain ⟨inside, -, -, goes⟩ := (lands_of_stands stands files hx ha).exists_inside
    obtain ⟨inside', -, -, goes'⟩ := (lands_of_stands stands files hy hb).exists_inside
    obtain ⟨c, root, -⟩ := components_packageRoot (p := p) (other hx dx)
    obtain ⟨c', root', -⟩ := components_packageRoot (p := p) (other hy dy)
    rw [goes, goes', root, root', List.append_assoc, List.append_assoc,
      List.append_cancel_left_eq] at same
    rw [root, root', (List.cons.inj same).1]

theorem destination_inj (hp : package ∈ Partition.packages ⟨p.emitRoot, extension⟩ modules artifacts)
    (ha : a ∈ package.artifacts) (hb : b ∈ package.artifacts)
    (same : (p.finalPath package a).components = (p.finalPath package b).components) :
    a.path.components = b.path.components := by
  obtain ⟨inside, -, whole, goes⟩ := (lands_of_stands stands files hp ha).exists_inside
  obtain ⟨inside', -, whole', goes'⟩ := (lands_of_stands stands files hp hb).exists_inside
  rw [goes, goes', List.append_cancel_left_eq] at same
  rw [whole, whole', same]

theorem exists_parent_finalPath
    (hp : package ∈ Partition.packages ⟨p.emitRoot, extension⟩ modules artifacts)
    (ha : a ∈ package.artifacts) : ∃ dir, (p.finalPath package a).parent = some dir := by
  obtain ⟨inside, some, -, goes⟩ := (lands_of_stands stands files hp ha).exists_inside
  have root : (p.packageRoot package).components ≠ [] := by
    have shallow : ∀ module ∈ modules, module.Shallow := fun module hm => (stands module hm).shallow
    by_cases dot : package.name = "."
    · rcases components_packageRoot_dot (p := p) dot with ⟨here, ne⟩ | ⟨-, here⟩
      · rwa [here]
      · simp [here]
    · obtain ⟨c, here, -⟩ := components_packageRoot (p := p)
        ((Partition.name_cases shallow hp).imp_right fun dots => dots.resolve_left dot)
      simp [here]
  refine exists_parent_of_length ?_
  rw [goes, List.length_append]
  have := List.length_pos_iff.mpr root
  have := List.length_pos_iff.mpr some
  omega

/-! ## Plans -/

/-- Once their roots pass the check, packages have a map of destinations. -/
theorem exists_finalPaths (maps : ".map" ∉ d.codeExtensions)
    (distinct : artifacts.Pairwise fun a b => (a.path == b.path) = false) {emitted : List Path}
    (passed : p.checkRoots emitted []
      (Partition.packages ⟨p.emitRoot, extension⟩ modules artifacts) = .ok ()) :
    ∃ paths, p.finalPaths (Partition.packages ⟨p.emitRoot, extension⟩ modules artifacts) =
      .ok paths := by
  have ne {a b : Artifact} (h : (a.path == b.path) = false) : a.path.components ≠ b.path.components :=
    fun same => by simp [Path.beq_iff.mpr same] at h
  have apart : (List.flatMap (fun package : Package => package.artifacts.map fun a =>
      (a.path, p.finalPath package a))
        (Partition.packages ⟨p.emitRoot, extension⟩ modules artifacts)).Pairwise PathMap.Apart := by
    refine List.pairwise_flatMap.mpr ⟨fun package hp => ?_, ?_⟩
    · refine List.pairwise_map.mpr ((distinct.sublist (Partition.artifacts_sublist hp)).imp_of_mem ?_)
      intro a b ha hb differ
      exact ⟨ne differ, fun same => ne differ (destination_inj stands files hp ha hb same)⟩
    · refine (checkRoots_eq_ok_iff.mp passed).2.imp_of_mem fun {x y} hx hy roots => ?_
      simp only [List.forall_mem_map]
      intro a ha b hb
      refine ⟨fun same => roots ?_, fun same => roots ?_⟩
      · rw [packageRoot, packageRoot, name_eq_of_shared stands files maps hx hy ha hb same]
      · exact root_eq_of_destination stands files hx hy ha hb same
  obtain ⟨paths, made⟩ := PathMap.exists_ofPairs apart
  exact ⟨paths, Except.mapError_eq_ok.mpr made⟩

end

/-- A tree of two code files with one stem and a declaration. -/
def twinTree : FileTree String :=
  ⟨[(["dist"], .directory), (["dist", "a.d.ts"], .file ""), (["dist", "a.js"], .file ""),
    (["dist", "a.mjs"], .file "")]⟩

end Planner
end Apportion
