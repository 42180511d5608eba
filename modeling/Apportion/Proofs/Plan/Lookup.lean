import Apportion.Apply
import Apportion.Proofs.Plan.Destinations
import Apportion.Proofs.Plan.Revisions
import Apportion.Proofs.Plan.Roots

/-!
Looking up what a plan moves. The map of its moves leads a packaged artifact to its destination and
leads nothing else anywhere (`get?_destinations`), and among all artifacts the packaged one is found
again by its path (`artifactAt_of_plan`). Packages of proper names write below roots of their own, so
that what is written has different places if no artifact goes to a manifest's path
(`distinct_places_of_writes`).
-/
namespace Apportion

/-- A name that ends a path stays when the path is read from elsewhere. -/
theorem Path.mem_components_join {p q : Path} {s : String} (h : q.fileName = some s) :
    .name s ∈ (p.join q).components := by
  obtain ⟨-, front, e⟩ := of_fileName h
  have mem : .name s ∈ q.components := by simp [e]
  cases absolute : q.isAbsolute with
  | true =>
    have same : p.join q = q := by simp [join, absolute]
    rwa [same]
  | false =>
    by_cases empty : p.text = ""
    · have same : p.join q = q := by simp [join, absolute, empty]
      rwa [same]
    · rw [components_join absolute (.inl empty)]
      exact List.mem_append_right _ (name_mem_steps mem)

namespace Partition
variable {part : Partition} {modules : List EmittedModule} {artifacts : List Artifact}
  {package : Package}

/-- Whether an artifact belongs to a package is told by its path. -/
theorem mem_artifacts_congr (h : package ∈ part.packages modules artifacts) {a b : Artifact}
    (ha : a ∈ package.artifacts) (hb : b ∈ artifacts) (same : a.path.components = b.path.components) :
    b ∈ package.artifacts := by
  obtain ⟨module, -, rfl⟩ := List.mem_map.mp h
  cases module with
  | file path =>
    obtain ⟨-, q, hq, e⟩ := mem_ofFile.mp ha
    exact mem_ofFile.mpr ⟨hb, q, hq, Path.beq_iff.mpr ((Path.beq_iff.mp e).trans same)⟩
  | directory dir entry =>
    refine mem_ofDirectory.mpr ⟨hb, ?_⟩
    have below := (mem_ofDirectory.mp ha).2
    rw [Path.startsWith_iff] at below ⊢
    rwa [← same]

end Partition

namespace Planner
variable {p : Planner} {packages : List Package} {package : Package} {changes : ChangeSet}
  {paths : PathMap} {a b : Artifact}

/-! ## Packages -/

/-- An artifact in normal form can be told from its package's directory if that has a name. -/
theorem member_of_name {extension : String} {modules : List EmittedModule}
    {artifacts : List Artifact} (normal : Path.NormalForm a.path.components)
    (hp : package ∈ Partition.packages ⟨p.emitRoot, extension⟩ modules artifacts)
    (name : package.name ≠ "") (ha : a ∈ package.artifacts) : p.Member package a := by
  refine ⟨normal, fun dir entry source => ?_⟩
  refine ⟨Partition.startsWith_of_mem hp source ha, ?_⟩
  obtain ⟨module, -, rfl⟩ := List.mem_map.mp hp
  cases module with
  | file path => cases source
  | directory dir' entry' =>
    cases source
    cases hn : dir.fileName with
    | none => exact absurd (congrArg (Option.getD · "") hn) name
    | some s => exact ⟨.name s, Path.mem_components_join hn, by simp⟩

theorem distinct_names (planned : p.plan packages = .ok changes) :
    packages.Pairwise fun a b => a.name ≠ b.name :=
  (checkRoots_eq_ok_iff.mp (plan_eq_ok planned).1).2.imp fun {a b} ne (e : a.name = b.name) =>
    ne (by rw [packageRoot, packageRoot, e])

theorem eq_of_packaged (planned : p.plan packages = .ok changes)
    (ha : a ∈ packages.flatMap (·.artifacts)) (hb : b ∈ packages.flatMap (·.artifacts))
    (same : a.path.components = b.path.components) : a = b := by
  obtain ⟨-, -, -, paths, final, -⟩ := plan_eq_ok planned
  exact List.inj_on_of_nodup_map (f := fun a : Artifact => a.path.components)
    (List.pairwise_map.mpr (distinct_of_finalPaths final)) ha hb same

/-! ## Destinations -/

theorem mem_moves_iff (planned : p.plan packages = .ok changes) {source target : Path} :
    (source, target) ∈ changes.moves ↔ ∃ package ∈ packages, ∃ a ∈ package.artifacts,
      a.path = source ∧ p.finalPath package a = target := by
  obtain ⟨-, -, -, paths, final, moves⟩ := plan_eq_ok planned
  rw [moves, (PathMap.of_ofPairs (Except.mapError_eq_ok.mp final)).2.mem_iff]
  simp [List.mem_flatMap, Prod.ext_iff]

theorem get?_finalPaths (final : p.finalPaths packages = .ok paths) {path target : Path} :
    paths.get? path = some target ↔ ∃ package ∈ packages, ∃ a ∈ package.artifacts,
      a.path.components = path.components ∧ p.finalPath package a = target := by
  rw [PathMap.get?_eq_some_iff (Except.mapError_eq_ok.mp final)]
  simp only [List.mem_flatMap, List.mem_map, Prod.mk.injEq]
  constructor
  · rintro ⟨source, ⟨package, hp, a, ha, rfl, final⟩, same⟩
    exact ⟨package, hp, a, ha, same, final⟩
  · rintro ⟨package, hp, a, ha, same, final⟩
    exact ⟨a.path, ⟨package, hp, a, ha, rfl, final⟩, same⟩

/-- The map of the moves leads packaged artifacts to their destinations, and nothing else anywhere. -/
theorem get?_destinations (planned : p.plan packages = .ok changes)
    (destined : changes.destinations = .ok paths) {path target : Path} :
    paths.get? path = some target ↔ ∃ package ∈ packages, ∃ a ∈ package.artifacts,
      a.path.components = path.components ∧ p.finalPath package a = target := by
  obtain ⟨-, -, -, final, found, moves⟩ := plan_eq_ok planned
  have perm := (PathMap.of_ofPairs (Except.mapError_eq_ok.mp found)).2
  rw [PathMap.get?_eq_some_iff destined, ← get?_finalPaths found,
    PathMap.get?_eq_some_iff (Except.mapError_eq_ok.mp found)]
  simp only [moves, perm.mem_iff]

/-- A packaged artifact is the only one at its path. -/
theorem artifactAt_of_plan {part : Partition} {modules : List EmittedModule}
    {artifacts : List Artifact} (planned : p.plan (part.packages modules artifacts) = .ok changes)
    (ha : a ∈ (part.packages modules artifacts).flatMap (·.artifacts)) {path : Path}
    (same : a.path.components = path.components) : Apply.artifactAt artifacts path = some a := by
  obtain ⟨package, hp, ha'⟩ := List.mem_flatMap.mp ha
  have there : a ∈ artifacts.filter fun b => b.path == path :=
    List.mem_filter.mpr ⟨Partition.mem_of_mem_artifacts hp ha', Path.beq_iff.mpr same⟩
  have last := List.getLast?_eq_some_getLast (List.ne_nil_of_mem there)
  obtain ⟨hb, fits⟩ := List.mem_filter.mp (List.mem_of_getLast? last)
  have same' := same.trans (Path.beq_iff.mp fits).symm
  have packaged := List.mem_flatMap.mpr ⟨package, hp,
    Partition.mem_artifacts_congr hp ha' hb same'⟩
  rw [Apply.artifactAt, last, ← eq_of_packaged planned ha packaged same']

/-! ## Places of what is written -/

/-- An artifact leads by names below the output root, the first of which is its package's. -/
theorem components_finalPath_of_name (name : IsName package.name) (member : p.Member package a) :
    (p.finalPath package a).components = p.outputRoot.components ++
      (package.name :: (p.within package a).place).map .name := by
  rw [components_finalPath member, components_within member, packageRoot,
    Path.components_join_name _ name]
  simp

/-- What is written leads by names below the output root, the first of which is a package's. -/
theorem components_of_mem_targets (plain : IsName p.manifestName)
    (names : ∀ package ∈ packages, IsName package.name)
    (member : ∀ package ∈ packages, ∀ a ∈ package.artifacts, p.Member package a) {path : Path}
    (h : path ∈ p.targets packages) : ∃ names : List String,
      path.components = p.outputRoot.components ++ names.map .name := by
  rcases List.mem_append.mp h with h | h
  · obtain ⟨package, hp, rfl⟩ := List.mem_map.mp h
    refine ⟨[package.name, p.manifestName], ?_⟩
    rw [Path.components_join_name _ plain, packageRoot, Path.components_join_name _ (names package hp)]
    simp
  · obtain ⟨package, hp, h⟩ := List.mem_flatMap.mp h
    obtain ⟨a, ha, rfl⟩ := List.mem_map.mp h
    exact ⟨_, components_finalPath_of_name (names package hp) (member package hp a ha)⟩

theorem settled_finalPath (output : p.outputRoot.Settled) (name : IsName package.name)
    (member : p.Member package a) : (p.finalPath package a).Settled := by
  have whole : (p.finalPath package a).components = .root ::
      (p.outputRoot.place ++ package.name :: (p.within package a).place).map .name := by
    rw [components_finalPath_of_name name member, output.components_eq, List.map_append]
    rfl
  exact Path.settled_of_names whole

theorem eq_of_place_finalPath (planned : p.plan packages = .ok changes)
    (names : ∀ package ∈ packages, IsName package.name)
    (member : ∀ package ∈ packages, ∀ a ∈ package.artifacts, p.Member package a)
    {other : Package} (hp : package ∈ packages) (ha : a ∈ package.artifacts) (ho : other ∈ packages)
    (hb : b ∈ other.artifacts)
    (same : (p.finalPath package a).place = (p.finalPath other b).place) : a = b := by
  obtain ⟨-, -, -, paths, final, -⟩ := plan_eq_ok planned
  have apart := (PathMap.of_ofPairs (Except.mapError_eq_ok.mp final)).1
  have listed {package : Package} {a : Artifact} (hp : package ∈ packages)
      (ha : a ∈ package.artifacts) : (a.path, p.finalPath package a) ∈
        packages.flatMap fun package => package.artifacts.map fun a =>
          (a.path, p.finalPath package a) :=
    List.mem_flatMap.mpr ⟨package, hp, List.mem_map_of_mem ha⟩
  have components : (p.finalPath package a).components = (p.finalPath other b).components := by
    have ea := components_finalPath_of_name (names package hp) (member package hp a ha)
    have eb := components_finalPath_of_name (names other ho) (member other ho b hb)
    rw [Path.place_append_names ea, Path.place_append_names eb] at same
    rw [ea, eb, List.append_cancel_left same]
  have pairs := List.inj_on_of_nodup_map (f := fun e : Path × Path => e.2.components)
    (List.pairwise_map.mpr (apart.imp And.right)) (listed hp ha) (listed ho hb) components
  have paths' : a.path = b.path := (Prod.mk.inj pairs).1
  exact eq_of_packaged planned (List.mem_flatMap.mpr ⟨package, hp, ha⟩)
    (List.mem_flatMap.mpr ⟨other, ho, hb⟩) (by rw [paths'])

/-- If no artifact goes to the path of a manifest, all that is written has places of its own. -/
theorem distinct_places_of_writes (planned : p.plan packages = .ok changes)
    (plain : IsName p.manifestName) (names : ∀ package ∈ packages, IsName package.name)
    (member : ∀ package ∈ packages, ∀ a ∈ package.artifacts, p.Member package a)
    (clear : ∀ move ∈ changes.moves, ∀ manifest ∈ changes.manifests,
      (move.2 == manifest.1) = false) :
    changes.writes.Pairwise fun a b => a.place ≠ b.place := by
  obtain ⟨passed, -, manifests, paths, final, moves⟩ := plan_eq_ok planned
  obtain ⟨apart, perm⟩ := PathMap.of_ofPairs (Except.mapError_eq_ok.mp final)
  have different : changes.writes.Pairwise fun a b => a.components ≠ b.components := by
    refine List.pairwise_append.mpr ⟨?_, ?_, ?_⟩
    · rw [manifests, List.map_map]
      refine List.pairwise_map.mpr ((checkRoots_eq_ok_iff.mp passed).2.imp fun {a b} ne e => ne ?_)
      simp only [Function.comp_apply, Path.components_join_name _ plain] at e
      exact List.append_cancel_right e
    · rw [moves]
      have apart' := (perm.pairwise_iff fun h => PathMap.Apart.symm h).mpr apart
      exact List.pairwise_map.mpr (apart'.imp And.right)
    · intro a ha b hb e
      obtain ⟨manifest, hm, rfl⟩ := List.mem_map.mp ha
      obtain ⟨move, hmove, rfl⟩ := List.mem_map.mp hb
      have no := clear move hmove manifest hm
      rw [Path.beq_iff.mpr e.symm] at no
      cases no
  refine different.imp_of_mem fun {a b} ha hb ne e => ne ?_
  obtain ⟨k, hk⟩ := components_of_mem_targets plain names member ((writes_perm planned).mem_iff.mp ha)
  obtain ⟨l, hl⟩ := components_of_mem_targets plain names member ((writes_perm planned).mem_iff.mp hb)
  rw [Path.place_append_names hk, Path.place_append_names hl] at e
  rw [hk, hl, List.append_cancel_left e]

theorem place_of_targets_iff (planned : p.plan packages = .ok changes)
    (plain : IsName p.manifestName) (names : ∀ package ∈ packages, IsName package.name)
    (member : ∀ package ∈ packages, ∀ a ∈ package.artifacts, p.Member package a)
    (hp : package ∈ packages) {k : Key} (below : (p.packageRoot package).place <+: k) :
    (∃ path ∈ p.targets packages, path.place = k) ↔
      k = ((p.packageRoot package).join ⟨p.manifestName⟩).place ∨
      ∃ a ∈ package.artifacts, k = (p.finalPath package a).place := by
  have same : ∀ other ∈ packages, (p.packageRoot other).place <+: k → other = package := by
    intro other ho below'
    rw [place_packageRoot (names package hp)] at below
    rw [place_packageRoot (names other ho)] at below'
    refine List.inj_on_of_nodup_map (f := Package.name)
      (List.pairwise_map.mpr (distinct_names planned)) ho hp ?_
    have equal := List.prefix_of_prefix_length_le below' below (by simp)
    rw [List.prefix_append_right_inj, List.cons_prefix_cons] at equal
    exact equal.1
  constructor
  · rintro ⟨path, hpath, rfl⟩
    rcases List.mem_append.mp hpath with h | h
    · obtain ⟨other, ho, rfl⟩ := List.mem_map.mp h
      rw [← same other ho (by rw [Path.place_join_name _ plain]; exact List.prefix_append _ _)]
      exact .inl rfl
    · obtain ⟨other, ho, h⟩ := List.mem_flatMap.mp h
      obtain ⟨a, ha, rfl⟩ := List.mem_map.mp h
      obtain rfl := same other ho (by
        rw [place_finalPath (member other ho a ha)]
        exact List.prefix_append _ _)
      exact .inr ⟨a, ha, rfl⟩
  · rintro (here | ⟨a, ha, here⟩)
    · exact ⟨_, List.mem_append_left _ (List.mem_map_of_mem hp), here.symm⟩
    · exact ⟨_, List.mem_append_right _ (List.mem_flatMap.mpr
        ⟨package, hp, List.mem_map_of_mem ha⟩), here.symm⟩

end Planner
end Apportion
