import Apportion.Proofs.Plan.Destinations
import Apportion.Proofs.Plan.Roots

/-!
Who writes where. Manifests and moves of a plan never meet across packages, and within a package they
keep apart exactly if no artifact lies at the directory itself, at the manifest's name, or below
another artifact (`writesApart_iff`).
-/
namespace Apportion

/-- Dots resolved, no file that is written is or holds another one, and none is a directory that is
made. -/
structure WritesApart (writes roots : List Path) : Prop where
  apart : writes.Pairwise Path.Aside
  fresh : ∀ path ∈ writes, ∀ root ∈ roots, (path.normalize == root.normalize) = false

theorem WritesApart.of_perm {writes writes' roots : List Path} (perm : writes.Perm writes')
    (h : WritesApart writes roots) : WritesApart writes' roots :=
  ⟨(perm.pairwise_iff fun h => h.symm).mp h.apart,
    fun path hp => h.fresh path (perm.mem_iff.mpr hp)⟩

namespace Planner
variable {p : Planner} {packages : List Package} {package : Package} {a b : Artifact}

/-! ## Places of writers -/

/-- A path that leads to some names below a directory of the output root. -/
structure Under (p : Planner) (name : String) (path : Path) (k : Key) : Prop where
  absolute : path.isAbsolute = true
  place : path.place = p.outputRoot.place ++ [name] ++ k

namespace Under
variable {name name' : String} {path path' : Path} {k l : Key}

theorem aside_iff (h : p.Under name path k) (h' : p.Under name path' l) :
    path.Aside path' ↔ ¬ l <+: k ∧ ¬ k <+: l := by
  rw [Path.aside_iff h.absolute h'.absolute, h.place, h'.place, List.prefix_append_right_inj,
    List.prefix_append_right_inj]

theorem aside_of_ne (h : p.Under name path k) (h' : p.Under name' path' l) (ne : name ≠ name') :
    path.Aside path' := by
  have apart {s t : String} {k l : Key} (ne : s ≠ t) :
      ¬ p.outputRoot.place ++ [s] ++ k <+: p.outputRoot.place ++ [t] ++ l := by
    simp [List.append_assoc, List.prefix_append_right_inj, ne]
  rw [Path.aside_iff h.absolute h'.absolute, h.place, h'.place]
  exact ⟨apart (Ne.symm ne), apart ne⟩

/-- What lies below a directory is not at the place of one. -/
theorem not_at_directory (h : p.Under name path k) (h' : p.Under name' path' []) (ne : k ≠ []) :
    (path.normalize == path'.normalize) = false := by
  rw [← Bool.not_eq_true, Path.beq_normalize_iff h.absolute h'.absolute, h.place, h'.place]
  intro e
  have len := congrArg List.length e
  have pos := List.length_pos_iff.mpr ne
  simp only [List.length_append, List.length_singleton, List.length_nil] at len
  omega

end Under

theorem under_packageRoot (output : p.outputRoot.Settled) (h : IsName package.name) :
    p.Under package.name (p.packageRoot package) [] := by
  refine ⟨Path.isAbsolute_join output.absolute _, ?_⟩
  rw [place_packageRoot h, List.append_nil]

theorem under_manifest (output : p.outputRoot.Settled) (h : IsName package.name)
    (plain : IsName p.manifestName) :
    p.Under package.name ((p.packageRoot package).join ⟨p.manifestName⟩) [p.manifestName] := by
  refine ⟨Path.isAbsolute_join (Path.isAbsolute_join output.absolute _) _, ?_⟩
  rw [Path.place_join_name _ plain, place_packageRoot h]

theorem under_finalPath (output : p.outputRoot.Settled) (h : IsName package.name)
    (ha : p.Member package a) :
    p.Under package.name (p.finalPath package a) (p.within package a).place := by
  refine ⟨Path.isAbsolute_join (Path.isAbsolute_join output.absolute _) _, ?_⟩
  rw [place_finalPath ha, place_packageRoot h]

/-! ## Writers of one package -/

theorem startsWith_within_iff (ha : p.Member package a) (hb : p.Member package b) :
    (p.within package a).startsWith (p.within package b) = false ↔
      ¬ (p.within package b).place <+: (p.within package a).place := by
  rw [← Bool.not_eq_true, Path.startsWith_iff, components_within ha, components_within hb,
    List.prefix_map_iff_of_injective Component.name_injective]

theorem startsWith_manifest_iff (plain : IsName p.manifestName) (ha : p.Member package a) :
    (p.within package a).startsWith ⟨p.manifestName⟩ = false ↔
      ¬ [p.manifestName] <+: (p.within package a).place := by
  rw [← Bool.not_eq_true, Path.startsWith_iff, components_within ha, Path.components_name plain,
    show [Component.name p.manifestName] = [p.manifestName].map .name from rfl,
    List.prefix_map_iff_of_injective Component.name_injective]

theorem finalPath_aside_iff (output : p.outputRoot.Settled) (h : IsName package.name)
    (ha : p.Member package a) (hb : p.Member package b) :
    (p.finalPath package a).Aside (p.finalPath package b) ↔
      (p.within package a).startsWith (p.within package b) = false ∧
      (p.within package b).startsWith (p.within package a) = false := by
  rw [(under_finalPath output h ha).aside_iff (under_finalPath output h hb),
    startsWith_within_iff ha hb, startsWith_within_iff hb ha]

/-- An artifact keeps apart from its manifest if it goes to the package's directory under another
name. -/
theorem manifest_aside_iff (output : p.outputRoot.Settled) (h : IsName package.name)
    (plain : IsName p.manifestName) (ha : p.Member package a) :
    ((p.packageRoot package).join ⟨p.manifestName⟩).Aside (p.finalPath package a) ↔
      (p.within package a).components ≠ [] ∧
      (p.within package a).startsWith ⟨p.manifestName⟩ = false := by
  rw [(under_manifest output h plain).aside_iff (under_finalPath output h ha),
    startsWith_manifest_iff plain ha, components_within ha, Ne, List.map_eq_nil_iff]
  constructor
  · rintro ⟨proper, named⟩
    refine ⟨fun nil => ?_, named⟩
    rw [nil] at proper
    exact proper List.nil_prefix
  · rintro ⟨proper, named⟩
    refine ⟨fun below => ?_, named⟩
    have all := below.eq_of_length_le (List.length_pos_iff.mpr proper)
    exact named (all ▸ List.prefix_refl _)

/-! ## Writers of all packages -/

/-- What is written for packages of proper names keeps apart exactly if within each package every
artifact lies below the directory, none at or below the manifest's name, and none at or below
another. -/
theorem writesApart_targets_iff (output : p.outputRoot.Settled) (plain : IsName p.manifestName)
    (names : ∀ package ∈ packages, IsName package.name)
    (distinct : packages.Pairwise fun a b => a.name ≠ b.name)
    (member : ∀ package ∈ packages, ∀ a ∈ package.artifacts, p.Member package a) :
    WritesApart (p.targets packages) (packages.map p.packageRoot) ↔
      ∀ package ∈ packages,
        (∀ a ∈ package.artifacts, (p.within package a).components ≠ [] ∧
          (p.within package a).startsWith ⟨p.manifestName⟩ = false) ∧
        package.artifacts.Pairwise fun a b =>
          (p.within package a).startsWith (p.within package b) = false ∧
          (p.within package b).startsWith (p.within package a) = false := by
  have manifest := fun package hp => under_manifest output (names package hp) plain
  have final := fun package hp a ha =>
    under_finalPath output (names package hp) (member package hp a ha)
  constructor
  · rintro ⟨apart, -⟩ package hp
    obtain ⟨-, moved, crossed⟩ := List.pairwise_append.mp apart
    constructor
    · intro a ha
      have aside := crossed _ (List.mem_map_of_mem hp) _
        (List.mem_flatMap.mpr ⟨package, hp, List.mem_map_of_mem ha⟩)
      exact (manifest_aside_iff output (names package hp) plain (member package hp a ha)).mp aside
    · have own := List.pairwise_map.mp ((List.pairwise_flatMap.mp moved).1 package hp)
      exact own.imp_of_mem fun ha hb h => (finalPath_aside_iff output (names package hp)
        (member package hp _ ha) (member package hp _ hb)).mp h
  · intro clear
    refine ⟨List.pairwise_append.mpr ⟨?_, List.pairwise_flatMap.mpr ⟨?_, ?_⟩, ?_⟩, ?_⟩
    · refine List.pairwise_map.mpr (distinct.imp_of_mem fun {a b} ha hb ne => ?_)
      exact (manifest a ha).aside_of_ne (manifest b hb) ne
    · intro package hp
      refine List.pairwise_map.mpr ((clear package hp).2.imp_of_mem fun ha hb h => ?_)
      exact (finalPath_aside_iff output (names package hp) (member package hp _ ha)
        (member package hp _ hb)).mpr h
    · refine distinct.imp_of_mem fun {a b} ha hb ne x hx y hy => ?_
      obtain ⟨c, hc, rfl⟩ := List.mem_map.mp hx
      obtain ⟨d, hd, rfl⟩ := List.mem_map.mp hy
      exact (final a ha c hc).aside_of_ne (final b hb d hd) ne
    · intro x hx y hy
      obtain ⟨a, ha, rfl⟩ := List.mem_map.mp hx
      obtain ⟨b, hb, hy⟩ := List.mem_flatMap.mp hy
      obtain ⟨c, hc, rfl⟩ := List.mem_map.mp hy
      by_cases same : a.name = b.name
      · -- the manifest that could be met is the one of the artifact's own package
        have root : p.packageRoot a = p.packageRoot b := by rw [packageRoot, packageRoot, same]
        rw [root]
        exact (manifest_aside_iff output (names b hb) plain (member b hb c hc)).mpr
          ((clear b hb).1 c hc)
      · exact (manifest a ha).aside_of_ne (final b hb c hc) same
    · intro x hx root hroot
      obtain ⟨b, hb, rfl⟩ := List.mem_map.mp hroot
      have directory := under_packageRoot output (names b hb)
      rcases List.mem_append.mp hx with hx | hx
      · obtain ⟨a, ha, rfl⟩ := List.mem_map.mp hx
        exact (manifest a ha).not_at_directory directory (List.cons_ne_nil _ _)
      · obtain ⟨a, ha, hx⟩ := List.mem_flatMap.mp hx
        obtain ⟨c, hc, rfl⟩ := List.mem_map.mp hx
        refine (final a ha c hc).not_at_directory directory fun nil => ((clear a ha).1 c hc).1 ?_
        rw [components_within (member a ha c hc), nil]
        rfl

/-- Where packages have names of their own and the manifest has a plain one, no two writers of a
plan meet, unless an artifact lies at its module's own path, at or below the place of the manifest
there, or at or below another artifact of the module. -/
theorem writesApart_iff {extension : String} {modules : List EmittedModule}
    {artifacts : List Artifact} {changes : ChangeSet}
    (emission : p.emitRoot.Settled) (output : p.outputRoot.Settled)
    (plain : IsName p.manifestName) (settled : ∀ a ∈ artifacts, a.path.Settled)
    (ordinary : ∀ package ∈ Partition.packages ⟨p.emitRoot, extension⟩ modules artifacts,
      package.name ≠ "" ∧ package.name ≠ "." ∧ package.name ≠ "..")
    (planned : p.plan (Partition.packages ⟨p.emitRoot, extension⟩ modules artifacts) = .ok changes) :
    WritesApart changes.writes changes.directories ↔
      ∀ package ∈ Partition.packages ⟨p.emitRoot, extension⟩ modules artifacts,
        (∀ a ∈ package.artifacts, (p.within package a).components ≠ [] ∧
          (p.within package a).startsWith ⟨p.manifestName⟩ = false) ∧
        package.artifacts.Pairwise fun a b =>
          (p.within package a).startsWith (p.within package b) = false ∧
          (p.within package b).startsWith (p.within package a) = false := by
  obtain ⟨passed, directories, -, -⟩ := plan_eq_ok planned
  have distinct := (checkRoots_eq_ok_iff.mp passed).2.imp fun {a b} ne (e : a.name = b.name) =>
    ne (by rw [packageRoot, packageRoot, e])
  have names : ∀ package ∈ Partition.packages ⟨p.emitRoot, extension⟩ modules artifacts,
      IsName package.name := fun package hp =>
    Partition.isName_name hp (ordinary package hp).1 (ordinary package hp).2.1
      (ordinary package hp).2.2
  have key := writesApart_targets_iff output plain names distinct fun package hp a ha =>
    member_of_settled emission settled hp ha
  rw [directories, ← key]
  exact ⟨.of_perm (writes_perm planned), .of_perm (writes_perm planned).symm⟩

/-- A directory with a file below another directory, beside a file. -/
theorem writesApart_iff_nested : ∃ changes : ChangeSet,
    (Path.mk "/dist").Settled ∧ (Path.mk "/p").Settled ∧ IsName "package.json" ∧
    (∀ a ∈ [Artifact.mk ⟨"/dist/lib/in/a.js"⟩ "" [] false, ⟨⟨"/dist/b.js"⟩, "", [], false⟩],
      a.path.Settled) ∧
    (∀ package ∈ Partition.packages ⟨⟨"/dist"⟩, ".js"⟩ [.directory ⟨"lib"⟩ none, .file ⟨"b.js"⟩]
      [⟨⟨"/dist/lib/in/a.js"⟩, "", [], false⟩, ⟨⟨"/dist/b.js"⟩, "", [], false⟩],
      package.name ≠ "" ∧ package.name ≠ "." ∧ package.name ≠ "..") ∧
    (Planner.mk ⟨"/dist"⟩ ⟨"/p"⟩ "package.json").plan (Partition.packages ⟨⟨"/dist"⟩, ".js"⟩
      [.directory ⟨"lib"⟩ none, .file ⟨"b.js"⟩] [⟨⟨"/dist/lib/in/a.js"⟩, "", [], false⟩,
        ⟨⟨"/dist/b.js"⟩, "", [], false⟩]) = .ok changes ∧
    WritesApart changes.writes changes.directories := by
  have emission : (Path.mk "/dist").Settled := by decide +kernel
  have output : (Path.mk "/p").Settled := by decide +kernel
  have settled : ∀ a ∈ [Artifact.mk ⟨"/dist/lib/in/a.js"⟩ "" [] false,
      ⟨⟨"/dist/b.js"⟩, "", [], false⟩], a.path.Settled := by decide +kernel
  have planned := Except.eq_ok_of_isSome (x := (Planner.mk ⟨"/dist"⟩ ⟨"/p"⟩ "package.json").plan
    (Partition.packages ⟨⟨"/dist"⟩, ".js"⟩ [.directory ⟨"lib"⟩ none, .file ⟨"b.js"⟩]
      [⟨⟨"/dist/lib/in/a.js"⟩, "", [], false⟩, ⟨⟨"/dist/b.js"⟩, "", [], false⟩]))
    (by decide +kernel) ⟨[]⟩
  refine ⟨_, emission, output, by decide +kernel, settled, by decide +kernel, planned, ?_⟩
  exact (writesApart_iff (p := ⟨⟨"/dist"⟩, ⟨"/p"⟩, "package.json"⟩) emission output
    (by decide +kernel) settled (by decide +kernel) planned).mpr (by decide +kernel)

/-- Nothing keeps a manifest and an artifact of the same name apart. -/
theorem manifest_meets_artifact : ∃ changes : ChangeSet,
    (Path.mk "/dist").Settled ∧ (Path.mk "/p").Settled ∧ IsName "package.json" ∧
    (Path.mk "/dist/lib/package.json").Settled ∧
    (∀ package ∈ Partition.packages ⟨⟨"/dist"⟩, ".js"⟩ [.directory ⟨"lib"⟩ none]
      [⟨⟨"/dist/lib/package.json"⟩, "", [], false⟩],
      package.name ≠ "" ∧ package.name ≠ "." ∧ package.name ≠ "..") ∧
    (Planner.mk ⟨"/dist"⟩ ⟨"/p"⟩ "package.json").plan (Partition.packages ⟨⟨"/dist"⟩, ".js"⟩
      [.directory ⟨"lib"⟩ none] [⟨⟨"/dist/lib/package.json"⟩, "", [], false⟩]) = .ok changes ∧
    ¬ WritesApart changes.writes changes.directories := by
  have planned := Except.eq_ok_of_isSome (x := (Planner.mk ⟨"/dist"⟩ ⟨"/p"⟩ "package.json").plan
    (Partition.packages ⟨⟨"/dist"⟩, ".js"⟩ [.directory ⟨"lib"⟩ none]
      [⟨⟨"/dist/lib/package.json"⟩, "", [], false⟩])) (by decide +kernel) ⟨[]⟩
  refine ⟨_, by decide +kernel, by decide +kernel, by decide +kernel, by decide +kernel,
    by decide +kernel, planned, ?_⟩
  intro apart
  have met := (writes_perm planned).pairwise_iff (fun h => Path.Aside.symm h) |>.mp apart.apart
  obtain ⟨-, -, crossed⟩ := List.pairwise_append.mp met
  have member : Artifact.mk ⟨"/dist/lib/package.json"⟩ "" [] false ∈
      (Partition.ofDirectory ⟨⟨"/dist"⟩, ".js"⟩ ⟨"lib"⟩ none
        [⟨⟨"/dist/lib/package.json"⟩, "", [], false⟩]).artifacts :=
    List.mem_filter.mpr ⟨List.mem_cons_self, by decide +kernel⟩
  have aside := crossed _ (List.mem_map_of_mem List.mem_cons_self) _
    (List.mem_flatMap.mpr ⟨_, List.mem_cons_self, List.mem_map_of_mem member⟩)
  exact absurd aside.1 (by decide +kernel)

end Planner
end Apportion
