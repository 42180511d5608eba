import Apportion.Proofs.Path.Order
import Apportion.Proofs.Path.Siblings
import Apportion.Proofs.Plan.Lookup

/-!
What a plan accounts for. An artifact is moved exactly if it belongs to a module, which is told by its
path alone (`Partition.mem_artifacts_iff`), and it is moved once: to a place of its own below the root
of its package (`placed_of_member`). The layout of the packages comes first, in the order of the
modules, and the moves come last, in path order (`accounts_of_plan`).
-/
namespace Apportion

/-! ## Members -/

/-- A module at a path of names, as seen from the root of the emitted tree. -/
def EmittedModule.Named (module : EmittedModule) : Prop :=
  ∀ c ∈ module.boundary.components, ∃ s, c = .name s

instance (c : Component) : Decidable (∃ s, c = .name s) :=
  match c with
  | .name s => isTrue ⟨s, rfl⟩
  | .root | .current | .parent => isFalse (by simp)

instance (module : EmittedModule) : Decidable module.Named :=
  inferInstanceAs (Decidable (∀ c ∈ module.boundary.components, ∃ s, c = .name s))

theorem EmittedModule.Named.start {module : EmittedModule} (h : module.Named) :
    module.boundary.start = none := by
  cases hs : module.boundary.start with
  | none => rfl
  | some c =>
    have whole := Path.components_of_start hs
    obtain ⟨s, rfl⟩ := h c (by rw [whole]; exact List.mem_cons_self)
    exact absurd (Path.start_of_components_name whole) (by simp [hs])

theorem EmittedModule.Shallow.named {module : EmittedModule} (h : module.Shallow) : module.Named := by
  obtain ⟨s, single⟩ := h
  simp [EmittedModule.Named, single]

namespace Partition
variable {part : Partition} {modules : List EmittedModule} {artifacts : List Artifact}
  {package : Package}

/-- Whether what lies at a path belongs to a module: at or below a directory, or among the files of a
code file. -/
def Owns (part : Partition) : EmittedModule → Path → Prop
  | .directory dir _, path => part.emitRoot.components ++ dir.components <+: path.components
  | .file file, path => ∃ sibling ∈ part.related file, sibling.components = path.components

theorem mem_artifacts_iff (named : ∀ module ∈ modules, module.Named)
    (h : package ∈ part.packages modules artifacts) {a : Artifact} :
    a ∈ package.artifacts ↔ a ∈ artifacts ∧ part.Owns package.source a.path := by
  obtain ⟨module, hm, rfl⟩ := List.mem_map.mp h
  cases module with
  | file file =>
    refine mem_ofFile.trans (and_congr_right fun _ => ?_)
    simp only [Path.beq_iff]
    rfl
  | directory dir entry =>
    refine mem_ofDirectory.trans (and_congr_right fun _ => ?_)
    have start : dir.start = none := (named _ hm).start
    rw [Path.startsWith_iff, Path.components_join_relative _ start]
    rfl

theorem sources_packages (part : Partition) (modules : List EmittedModule)
    (artifacts : List Artifact) : (part.packages modules artifacts).map (·.source) = modules := by
  rw [packages, List.map_map]
  refine (List.map_congr_left fun module _ => ?_).trans (List.map_id modules)
  cases module <;> rfl

/-- The files of a code file lie beside it, and are named by its stem. -/
theorem components_related {file : Path} {s : String} (start : file.start = none)
    (h : file.fileName = some s) : (part.related file).map Path.components =
      file.siblingExtensions.map fun e =>
        part.emitRoot.components ++ file.components.dropLast ++ [.name (file.stem ++ e)] := by
  have whole := part.emitRoot.components_join_relative start
  obtain ⟨-, front, e⟩ := Path.of_fileName h
  have name : (part.emitRoot.join file).fileName = some s := by
    rw [Path.fileName, whole, e, ← List.append_assoc, List.getLast?_concat]
  have stem := Path.stem_congr (name.trans h.symm)
  rw [related, List.map_map]
  refine List.map_congr_left fun extension he => ?_
  rw [Function.comp_apply, Path.components_withExtension name, stem, whole, e,
    ← List.append_assoc, List.dropLast_concat, List.dropLast_concat]
  rw [stem]
  exact Path.isName_stem_append h he

end Partition

/-! ## Places -/

namespace Planner
variable {p : Planner} {package : Package} {a : Artifact}

/-- An artifact goes below the root of its package: from a directory with the path that it has there,
from elsewhere with its file name. -/
def Placed (p : Planner) (package : Package) (a : Artifact) : Prop :=
  match package.source with
  | .directory dir _ => ∃ inside,
      a.path.components = p.emitRoot.components ++ dir.components ++ inside ∧
      (p.finalPath package a).components = (p.packageRoot package).components ++ inside
  | .file _ => (p.finalPath package a).components =
      (p.packageRoot package).components ++ (a.path.fileName.map Component.name).toList

theorem placed_of_inside (named : package.source.Named)
    (inside : ∀ dir entry, package.source = .directory dir entry →
      a.path.startsWith (p.emitRoot.join dir) = true ∧ (p.emitRoot.join dir).components ≠ []) :
    p.Placed package a := by
  have final := Path.components_join_relative (p.packageRoot package) (start_within inside)
  rw [← finalPath_eq] at final
  unfold Placed
  split
  · rename_i dir entry source
    obtain ⟨below, -⟩ := inside dir entry source
    rw [← Path.stripStart_isSome] at below
    obtain ⟨inside, strip⟩ := Option.isSome_iff_exists.mp below
    have start : dir.start = none := by
      rw [source] at named
      exact named.start
    have boundary := p.emitRoot.components_join_relative start
    refine ⟨inside.components, ?_, ?_⟩
    · rw [← boundary]
      exact (Path.components_of_stripStart strip).2
    · rw [final, within, source]
      simp only [strip, Option.getD_some]
  · rename_i file source
    rw [final, within, source]
    simp only [Option.getD_none]
    cases name : a.path.fileName with
    | none => rfl
    | some s => rw [Option.getD_some, Path.components_name (Path.of_fileName name).1]; rfl

theorem placed_of_member (named : package.source.Named) (h : p.Member package a) :
    p.Placed package a :=
  placed_of_inside named h.below

/-! ## The account -/

/-- The changes account for all artifacts of the modules, each once. -/
structure Accounts (p : Planner) (part : Partition) (modules : List EmittedModule)
    (artifacts : List Artifact) (packages : List Package) (changes : ChangeSet) : Prop where
  /-- There is a package for each module, of the artifacts that belong to it. -/
  sources : packages.map (·.source) = modules
  owned : ∀ package ∈ packages, ∀ a,
    a ∈ package.artifacts ↔ a ∈ artifacts ∧ part.Owns package.source a.path
  /-- No path is assigned twice, to one package or to two. -/
  once : (packages.flatMap (·.artifacts)).Pairwise fun a b => a.path.components ≠ b.path.components
  ordered : changes.changes.Pairwise fun c d => c.phase.rank ≤ d.phase.rank
  layout : ChangeSet.inPhase .layout changes.changes = packages.flatMap fun package =>
    [.createDirectory (p.packageRoot package),
      .writeManifest ((p.packageRoot package).join ⟨p.manifestName⟩) package.manifest.render]
  /-- Every assigned artifact is moved once, and nothing else. -/
  moved : changes.moves.Perm (packages.flatMap fun package =>
    package.artifacts.map fun a => (a.path, p.finalPath package a))
  sorted : changes.moves.Pairwise fun e f => compare e.1 f.1 = .lt
  apart : changes.moves.Pairwise fun e f => e.2.components ≠ f.2.components
  inside : ∀ package ∈ packages, ∀ a ∈ package.artifacts,
    (p.finalPath package a).startsWith (p.packageRoot package) = true
  placed : ∀ package ∈ packages, ∀ a ∈ package.artifacts, p.Placed package a
  /-- An artifact is moved exactly if it belongs to a module. -/
  taken : ∀ a ∈ artifacts, (∃ target, (a.path, target) ∈ changes.moves) ↔
    ∃ module ∈ modules, part.Owns module a.path
  siblings : ∀ file s, .file file ∈ modules → file.fileName = some s →
    (part.related file).map Path.components = file.siblingExtensions.map fun e =>
      part.emitRoot.components ++ file.components.dropLast ++ [.name (file.stem ++ e)]

section
variable {extension : String} {modules : List EmittedModule} {artifacts : List Artifact}
  {packages : List Package} {changes : ChangeSet}

theorem layout_of_plan (planned : p.plan packages = .ok changes) :
    ChangeSet.inPhase .layout changes.changes = packages.flatMap p.layout := by
  obtain ⟨-, paths, revised, -, each, rfl⟩ := plan_parts planned
  rw [ChangeSet.inPhase_ofList, ChangeSet.inPhase, List.filter_append, List.filter_append]
  have layout : ∀ c ∈ packages.flatMap p.layout, (c.phase == .layout) = true := by
    intro c hc
    obtain ⟨package, -, hc⟩ := List.mem_flatMap.mp hc
    simp only [Planner.layout, List.mem_cons, List.not_mem_nil, or_false] at hc
    rcases hc with rfl | rfl <;> rfl
  have revise : ∀ c ∈ revised.flatten, ¬ (c.phase == .layout) = true := by
    intro c hc
    obtain ⟨cs, hcs, hc⟩ := List.mem_flatten.mp hc
    obtain ⟨a, -, ha⟩ := Except.exists_of_mem_mapM each cs hcs
    rw [phase_of_revised (revised_of_revisions ha c hc)]
    decide
  have moves : ∀ c ∈ paths.entries.map fun e => Change.move e.1 e.2,
      ¬ (c.phase == .layout) = true := by
    intro c hc
    obtain ⟨e, -, rfl⟩ := List.mem_map.mp hc
    exact Bool.eq_false_iff.mp rfl
  rw [List.filter_eq_self.mpr layout, List.filter_eq_nil_iff.mpr revise,
    List.filter_eq_nil_iff.mpr moves, List.append_nil, List.append_nil]

/-- A plan accounts for everything: it makes a package of every module, moves the artifacts that
belong to modules, and moves each of them once and to a place of its own. -/
theorem accounts_of_plan (emission : p.emitRoot.Settled) (named : ∀ module ∈ modules, module.Named)
    (settled : ∀ a ∈ artifacts, a.path.Settled)
    (planned : p.plan (Partition.packages ⟨p.emitRoot, extension⟩ modules artifacts) = .ok changes) :
    p.Accounts ⟨p.emitRoot, extension⟩ modules artifacts
      (Partition.packages ⟨p.emitRoot, extension⟩ modules artifacts) changes := by
  have sources := Partition.sources_packages ⟨p.emitRoot, extension⟩ modules artifacts
  have owned : ∀ package ∈ Partition.packages ⟨p.emitRoot, extension⟩ modules artifacts, ∀ a,
      a ∈ package.artifacts ↔
        a ∈ artifacts ∧ Partition.Owns ⟨p.emitRoot, extension⟩ package.source a.path :=
    fun package hp a => Partition.mem_artifacts_iff named hp
  have member : ∀ package ∈ Partition.packages ⟨p.emitRoot, extension⟩ modules artifacts,
      ∀ a ∈ package.artifacts, p.Member package a :=
    fun package hp a ha => member_of_settled emission settled hp ha
  obtain ⟨-, -, -, paths, final, moves⟩ := plan_eq_ok planned
  have pairs := Except.mapError_eq_ok.mp final
  have entries := PathMap.pairwise_entries pairs
  refine ⟨sources, owned, distinct_of_finalPaths final, ?_, layout_of_plan planned, ?_, ?_, ?_, ?_,
    ?_, ?_, ?_⟩
  · obtain ⟨-, paths, revised, -, -, rfl⟩ := plan_parts planned
    exact ChangeSet.pairwise_ofList _
  · rw [moves]
    exact (PathMap.of_ofPairs pairs).2
  · rw [moves]
    exact entries.imp And.right
  · rw [moves]
    exact entries.imp fun h => h.1.2
  · intro package hp a ha
    rw [Path.startsWith_iff, components_finalPath (member package hp a ha)]
    exact List.prefix_append _ _
  · intro package hp a ha
    exact placed_of_member (named _ (Partition.source_mem hp)) (member package hp a ha)
  · intro a ha
    simp only [mem_moves_iff planned]
    constructor
    · rintro ⟨_, package, hp, b, hb, same, -⟩
      refine ⟨_, Partition.source_mem hp, ?_⟩
      rw [← same]
      exact ((owned package hp b).mp hb).2
    · rintro ⟨module, hm, owns⟩
      rw [← sources] at hm
      obtain ⟨package, hp, rfl⟩ := List.mem_map.mp hm
      exact ⟨_, package, hp, a, (owned package hp a).mpr ⟨ha, owns⟩, rfl, rfl⟩
  · intro file s hf name
    have start : file.start = none := (named _ hf).start
    exact Partition.components_related start name

end

/-- A directory, a code file with its declaration, and a file that belongs to no module. -/
theorem accounts_of_plan_both :
    let modules : List EmittedModule := [.directory ⟨"lib"⟩ none, .file ⟨"util/b.js"⟩]
    let artifacts : List Artifact := [⟨⟨"/dist/util/b.d.ts"⟩, "", [], false⟩,
      ⟨⟨"/dist/lib/in/a.js"⟩, "", [], false⟩, ⟨⟨"/dist/util/b.js"⟩, "", [], false⟩,
      ⟨⟨"/dist/util/c.js"⟩, "", [], false⟩]
    let p : Planner := ⟨⟨"/dist"⟩, ⟨"/p"⟩, "package.json"⟩
    let part : Partition := ⟨⟨"/dist"⟩, ".js"⟩
    p.emitRoot.Settled ∧ (∀ module ∈ modules, module.Named) ∧ (∀ a ∈ artifacts, a.path.Settled) ∧
    ∃ changes, p.plan (part.packages modules artifacts) = .ok changes ∧
      p.Accounts part modules artifacts (part.packages modules artifacts) changes ∧
      changes.moves.length = 3 := by
  intro modules artifacts p part
  have planned := Except.eq_ok_of_isSome (x := p.plan (part.packages modules artifacts))
    (by decide +kernel) ⟨[]⟩
  have emission : p.emitRoot.Settled := by decide +kernel
  have named : ∀ module ∈ modules, module.Named := by decide +kernel
  have settled : ∀ a ∈ artifacts, a.path.Settled := by decide +kernel
  have account := accounts_of_plan emission named settled planned
  exact ⟨emission, named, settled, _, planned, account, account.moved.length_eq.trans (by decide +kernel)⟩

end Planner
end Apportion
