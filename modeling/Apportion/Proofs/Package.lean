import Apportion.Package
import Apportion.Proofs.Path.Extension

/-!
Packages of emitted modules. A package is named by the last name of its module, without the
extension if that is a file (`name_cases`), and has artifacts from the list it was formed from; those
of a directory lie at or below it (`startsWith_of_mem`).
-/
namespace Apportion

def EmittedModule.Shallow (module : EmittedModule) : Prop :=
  ∃ s, module.boundary.components = [.name s]

def EmittedModule.packageName : EmittedModule → String
  | .file path => path.stem
  | .directory dir _ => dir.fileName.getD ""

namespace Partition
variable {part : Partition} {modules : List EmittedModule} {artifacts : List Artifact}
  {package : Package}

/-! ## Names -/

theorem source_mem (h : package ∈ part.packages modules artifacts) : package.source ∈ modules := by
  obtain ⟨module, hm, rfl⟩ := List.mem_map.mp h
  cases module with
  | file path => exact hm
  | directory dir entry => exact hm

theorem name_eq (h : package ∈ part.packages modules artifacts) :
    package.name = package.source.packageName := by
  obtain ⟨module, -, rfl⟩ := List.mem_map.mp h
  cases module <;> rfl

theorem names_congr (part : Partition) (modules : List EmittedModule)
    (artifacts others : List Artifact) :
    (part.packages modules artifacts).map (·.name) = (part.packages modules others).map (·.name) := by
  rw [packages, packages, List.map_map, List.map_map]
  refine List.map_congr_left fun module _ => ?_
  cases module <;> rfl

/-- A package is named by a file stem or a directory, and only a stem can be made of dots. -/
theorem name_cases (shallow : ∀ module ∈ modules, module.Shallow)
    (h : package ∈ part.packages modules artifacts) :
    IsName package.name ∨ package.name = "." ∨ package.name = ".." := by
  obtain ⟨s, e⟩ := shallow _ (source_mem h)
  rw [name_eq h]
  cases source : package.source with
  | file path =>
    rw [source] at e
    exact Path.stem_cases (s := s) (by rw [Path.fileName, show path.components = [.name s] from e]; rfl)
  | directory dir entry =>
    rw [source] at e
    have name : dir.fileName = some s := by
      rw [Path.fileName, show dir.components = [.name s] from e]
      rfl
    rw [EmittedModule.packageName, name]
    exact .inl (Path.of_fileName name).1

theorem isName_of_shallow (shallow : ∀ module ∈ modules, module.Shallow)
    (h : package ∈ part.packages modules artifacts) (dot : package.name ≠ ".")
    (dots : package.name ≠ "..") : IsName package.name :=
  (name_cases shallow h).resolve_right fun only => only.elim dot dots

/-- Any package has a proper name, unless it is named by dots or by nothing. -/
theorem isName_name (h : package ∈ part.packages modules artifacts) (nonempty : package.name ≠ "")
    (dot : package.name ≠ ".") (dots : package.name ≠ "..") : IsName package.name := by
  refine ⟨nonempty, dot, dots, ?_⟩
  rw [name_eq h]
  cases package.source with
  | file path => exact path.slash_not_mem_stem
  | directory dir entry => exact dir.slash_not_mem_fileName

/-! ## Members -/

theorem artifacts_sublist (h : package ∈ part.packages modules artifacts) :
    package.artifacts.Sublist artifacts := by
  obtain ⟨module, -, rfl⟩ := List.mem_map.mp h
  cases module with
  | file path => exact List.filter_sublist
  | directory dir entry => exact List.filter_sublist

theorem mem_of_mem_artifacts (h : package ∈ part.packages modules artifacts) {a : Artifact}
    (ha : a ∈ package.artifacts) : a ∈ artifacts :=
  (artifacts_sublist h).subset ha

theorem mem_ofFile {file : Path} {a : Artifact} : a ∈ (part.ofFile file artifacts).artifacts ↔
    a ∈ artifacts ∧ ∃ sibling ∈ part.related file, (sibling == a.path) = true :=
  List.mem_filter.trans (and_congr_right fun _ => List.any_eq_true)

theorem mem_ofDirectory {dir : Path} {entry : Option Path} {a : Artifact} :
    a ∈ (part.ofDirectory dir entry artifacts).artifacts ↔
      a ∈ artifacts ∧ a.path.startsWith (part.emitRoot.join dir) = true :=
  List.mem_filter

theorem startsWith_of_mem (h : package ∈ part.packages modules artifacts) {dir : Path}
    {entry : Option Path} (source : package.source = .directory dir entry) {a : Artifact}
    (ha : a ∈ package.artifacts) : a.path.startsWith (part.emitRoot.join dir) = true := by
  obtain ⟨module, -, rfl⟩ := List.mem_map.mp h
  cases module with
  | file path => cases source
  | directory dir' entry' =>
    cases source
    exact (mem_ofDirectory.mp ha).2

end Partition
end Apportion
