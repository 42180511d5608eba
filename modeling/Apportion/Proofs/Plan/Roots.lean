import Apportion.Proofs.Discovery
import Apportion.Proofs.Plan.Changes

/-!
Package roots. A package is made in an empty directory, so that whatever its root held before is
gone. The check of the roots compares paths as they are written (`checkRoots_eq_ok_iff`); it keeps
emitted files and other packages out of the way as long as every package has a name of its own, and
exactly the packages named by dots need more (`safeToWipe_iff`).
-/
namespace Apportion

namespace Planner
variable {p : Planner} {package other : Package} {packages : List Package}

/-! ## The check -/

/-- Roots pass if no two are the same as written, and none is, as written, the beginning of a path
that was emitted. -/
theorem checkRoots_eq_ok_iff {emitted : List Path} {seen : List (Path × String)} :
    p.checkRoots emitted seen packages = .ok () ↔
      (∀ package ∈ packages,
        (∀ e ∈ seen, e.1.components ≠ (p.packageRoot package).components) ∧
        ∀ path ∈ emitted, path.startsWith (p.packageRoot package) = false) ∧
      packages.Pairwise fun a b => (p.packageRoot a).components ≠ (p.packageRoot b).components := by
  induction packages generalizing seen with
  | nil => simp [checkRoots]
  | cons package rest ih =>
    simp only [checkRoots]
    split
    · rename_i root name found
      have same := List.find?_some found
      have mem := List.mem_of_find?_eq_some found
      simp only [reduceCtorEq, false_iff, not_and]
      intro all
      exact absurd (Path.beq_iff.mp same) ((all package List.mem_cons_self).1 _ mem)
    · rename_i new
      split
      · rename_i path found
        have below := List.find?_some found
        have mem := List.mem_of_find?_eq_some found
        simp only [reduceCtorEq, false_iff, not_and]
        intro all
        exact absurd below (by simp [(all package List.mem_cons_self).2 path mem])
      · rename_i free
        have new' : ∀ e ∈ seen, e.1.components ≠ (p.packageRoot package).components := fun e he =>
          mt Path.beq_iff.mpr (List.find?_eq_none.mp new e he)
        have free' : ∀ path ∈ emitted, path.startsWith (p.packageRoot package) = false :=
          fun path hpath => by simpa using List.find?_eq_none.mp free path hpath
        rw [ih, List.pairwise_cons]
        constructor
        · rintro ⟨all, apart⟩
          refine ⟨fun q hq => ?_, fun q hq => ?_, apart⟩
          · rcases List.mem_cons.mp hq with rfl | hq
            · exact ⟨new', free'⟩
            · exact ⟨fun e he => (all q hq).1 e (List.mem_cons_of_mem _ he), (all q hq).2⟩
          · exact (all q hq).1 (p.packageRoot package, package.name) List.mem_cons_self
        · rintro ⟨all, first, apart⟩
          refine ⟨fun q hq => ⟨fun e he => ?_, (all q (List.mem_cons_of_mem _ hq)).2⟩, apart⟩
          rcases List.mem_cons.mp he with rfl | he
          · exact first q hq
          · exact (all q (List.mem_cons_of_mem _ hq)).1 e he

/-! ## Where roots lie -/

theorem place_packageRoot (h : IsName package.name) :
    (p.packageRoot package).place = p.outputRoot.place ++ [package.name] :=
  Path.place_join_name p.outputRoot h

theorem settled_packageRoot (output : p.outputRoot.Settled) (h : IsName package.name) :
    (p.packageRoot package).Settled := by
  have below : (p.packageRoot package).components =
      .root :: (p.outputRoot.place ++ [package.name]).map .name := by
    rw [packageRoot, Path.components_join_name _ h, output.components_eq]
    simp
  exact Path.settled_of_names below

/-- A package named by dots has its root above that of any other package, or below it. -/
theorem root_comparable (output : p.outputRoot.Settled)
    (dots : package.name = "." ∨ package.name = "..")
    (h : IsName other.name ∨ other.name = "." ∨ other.name = "..") :
    (p.packageRoot package).place <+: (p.packageRoot other).place ∨
      (p.packageRoot other).place <+: (p.packageRoot package).place := by
  have up : p.outputRoot.place.dropLast <+: p.outputRoot.place := List.dropLast_prefix _
  have down : p.outputRoot.place <+: p.outputRoot.place ++ [other.name] := List.prefix_append _ _
  have one {q : Package} (h : q.name = ".") : (p.packageRoot q).place = p.outputRoot.place := by
    rw [packageRoot, h, Path.place_join_dot output.absolute]
  have two {q : Package} (h : q.name = "..") :
      (p.packageRoot q).place = p.outputRoot.place.dropLast := by
    rw [packageRoot, h, Path.place_join_dots]
  rcases dots with dot | dot <;> rcases h with h | h | h
  · rw [one dot, place_packageRoot h]
    exact .inl down
  · rw [one dot, one h]
    exact .inl (List.prefix_refl _)
  · rw [one dot, two h]
    exact .inr up
  · rw [two dot, place_packageRoot h]
    exact .inl (up.trans down)
  · rw [two dot, one h]
    exact .inl up
  · rw [two dot, two h]
    exact .inl (List.prefix_refl _)

/-- A package named by dots is alone among roots that keep apart. -/
theorem length_eq_one_of_dots (output : p.outputRoot.Settled)
    (names : ∀ package ∈ packages, IsName package.name ∨ package.name = "." ∨ package.name = "..")
    (apart : (packages.map p.packageRoot).Pairwise Path.Aside) (hp : package ∈ packages)
    (dots : package.name = "." ∨ package.name = "..") : packages.length = 1 := by
  have absolute : ∀ package, (p.packageRoot package).isAbsolute = true := fun _ =>
    Path.isAbsolute_join output.absolute _
  have near : ∀ other ∈ packages, ¬ (p.packageRoot package).Aside (p.packageRoot other) := by
    intro other ho
    rw [Path.aside_iff (absolute _) (absolute _)]
    rintro ⟨below, above⟩
    exact (root_comparable output dots (names other ho)).elim above below
  -- what comes before or after it would have to be apart from it
  obtain ⟨front, back, rfl⟩ := List.append_of_mem hp
  obtain ⟨-, after, before⟩ := List.pairwise_append.mp (List.pairwise_map.mp apart)
  have none_before : front = [] := by
    refine List.eq_nil_iff_forall_not_mem.mpr fun other ho => near other (by simp [ho]) ?_
    exact (before other ho package List.mem_cons_self).symm
  have none_after : back = [] := by
    refine List.eq_nil_iff_forall_not_mem.mpr fun other ho => near other (by simp [ho]) ?_
    exact (List.pairwise_cons.mp after).1 other ho
  simp [none_before, none_after]

/-- Roots by proper names keep apart if they differ. -/
theorem aside_of_names (output : p.outputRoot.Settled) (h : IsName package.name)
    (h' : IsName other.name)
    (ne : (p.packageRoot package).components ≠ (p.packageRoot other).components) :
    (p.packageRoot package).Aside (p.packageRoot other) := by
  have settled := settled_packageRoot output h
  have settled' := settled_packageRoot output h'
  have apart : (p.packageRoot package).place ≠ (p.packageRoot other).place := fun e =>
    ne (Path.beq_iff.mp ((settled.beq_iff settled').mpr e))
  have len : (p.packageRoot package).place.length = (p.packageRoot other).place.length := by
    simp [place_packageRoot h, place_packageRoot h']
  rw [Path.aside_iff settled.absolute settled'.absolute]
  constructor
  · intro below
    exact apart (below.eq_of_length len.symm).symm
  · intro below
    exact apart (below.eq_of_length len)

/-! ## Safety -/

/-- Making directories at the roots loses nothing else: dots resolved, no root is or holds a path
that is to be kept, and no root is or holds another root. -/
structure SafeToWipe (roots kept : List Path) : Prop where
  spares : ∀ root ∈ roots, ∀ path ∈ kept, path.normalize.startsWith root.normalize = false
  apart : roots.Pairwise Path.Aside

/-- The packages of discovered modules have roots that are safe to wipe, unless one is named by
dots. Such a package has to be the only one, and its root, the dots resolved, must not hold what was
emitted. -/
theorem safeToWipe_iff {p : Planner} {d : Discovery} {s : Memory} {extension : String}
    {modules : List EmittedModule} {artifacts : List Artifact} {changes : ChangeSet}
    (emission : p.emitRoot.Settled) (output : p.outputRoot.Settled) (tree : s.tree.WellFormed)
    (found : (d.discover (m := StateM Memory) p.emitRoot s).1 = .ok modules)
    (settled : ∀ a ∈ artifacts, a.path.Settled)
    (planned : p.plan (Partition.packages ⟨p.emitRoot, extension⟩ modules artifacts) = .ok changes) :
    SafeToWipe changes.directories
        (p.emitted (Partition.packages ⟨p.emitRoot, extension⟩ modules artifacts)) ↔
      ∀ package ∈ Partition.packages ⟨p.emitRoot, extension⟩ modules artifacts,
        package.name = "." ∨ package.name = ".." →
        (Partition.packages ⟨p.emitRoot, extension⟩ modules artifacts).length = 1 ∧
        ∀ path ∈ p.emitted (Partition.packages ⟨p.emitRoot, extension⟩ modules artifacts),
          path.startsWith (p.packageRoot package).normalize = false := by
  have names : ∀ package ∈ Partition.packages ⟨p.emitRoot, extension⟩ modules artifacts,
      IsName package.name ∨ package.name = "." ∨ package.name = ".." := fun package hp =>
    Partition.name_cases (Discovery.shallow_of_discover tree found) hp
  have subset : ∀ package ∈ Partition.packages ⟨p.emitRoot, extension⟩ modules artifacts,
      ∀ a ∈ package.artifacts, a ∈ artifacts := fun package hp a ha =>
    Partition.mem_of_mem_artifacts hp ha
  generalize Partition.packages ⟨p.emitRoot, extension⟩ modules artifacts = packages at *
  obtain ⟨passed, directories, -, -⟩ := plan_eq_ok planned
  obtain ⟨check, distinct⟩ := checkRoots_eq_ok_iff.mp passed
  have kept : ∀ path ∈ p.emitted packages, path.Settled := by
    intro path hpath
    rcases List.mem_cons.mp hpath with rfl | hpath
    · exact emission
    · obtain ⟨package, hp, ha⟩ := List.mem_flatMap.mp hpath
      obtain ⟨a, mem, rfl⟩ := List.mem_map.mp ha
      exact settled a (subset package hp a mem)
  have absolute : ∀ package, (p.packageRoot package).isAbsolute = true := fun _ =>
    Path.isAbsolute_join output.absolute _
  rw [directories]
  constructor
  · intro safe package hp dots
    refine ⟨length_eq_one_of_dots output names safe.apart hp dots, fun path hpath => ?_⟩
    rw [← (kept path hpath).startsWith_normalize (absolute package)]
    exact safe.spares _ (List.mem_map_of_mem hp) path hpath
  · intro only
    constructor
    · intro root hroot path hpath
      obtain ⟨package, hp, rfl⟩ := List.mem_map.mp hroot
      rcases names package hp with name | dots
      · have settled := settled_packageRoot output name
        have spared := (check package hp).2 path hpath
        rwa [← Bool.not_eq_true, (kept path hpath).startsWith_iff settled,
          ← Path.startsWith_normalize_iff (kept path hpath).absolute settled.absolute,
          Bool.not_eq_true] at spared
      · rw [(kept path hpath).startsWith_normalize (absolute package)]
        exact (only package hp dots).2 path hpath
    · by_cases dots : ∃ package ∈ packages, package.name = "." ∨ package.name = ".."
      · obtain ⟨package, hp, dots⟩ := dots
        obtain ⟨single, rfl⟩ := List.length_eq_one_iff.mp (only package hp dots).1
        exact List.pairwise_singleton _ _
      · have name : ∀ package ∈ packages, IsName package.name := fun package hp =>
          (names package hp).resolve_right fun h => dots ⟨package, hp, h⟩
        refine List.pairwise_map.mpr (distinct.imp_of_mem fun {a b} ha hb ne => ?_)
        exact aside_of_names output (name a ha) (name b hb) ne

/-- An emitted tree whose only file has a stem made of dots. -/
def dottedTree : FileTree String := ⟨[(["dist"], .directory), (["dist", "...js"], .file "")]⟩

/-- A package named by two dots can be safe: its root is the directory above the output root. -/
theorem safeToWipe_iff_dotted : ∃ (modules : List EmittedModule) (changes : ChangeSet),
    (Path.mk "/dist").Settled ∧ (Path.mk "/p/q").Settled ∧ dottedTree.WellFormed ∧
    ((Discovery.mk [".js"] ["index"]).discover (m := StateM Memory) ⟨"/dist"⟩
      (.ofTree dottedTree)).1 = .ok modules ∧
    (∀ a ∈ [Artifact.mk ⟨"/dist/...js"⟩ "" [] false], a.path.Settled) ∧
    (Planner.mk ⟨"/dist"⟩ ⟨"/p/q"⟩ "package.json").plan (Partition.packages ⟨⟨"/dist"⟩, ".js"⟩ modules
      [⟨⟨"/dist/...js"⟩, "", [], false⟩]) = .ok changes ∧
    SafeToWipe changes.directories ((Planner.mk ⟨"/dist"⟩ ⟨"/p/q"⟩ "package.json").emitted
      (Partition.packages ⟨⟨"/dist"⟩, ".js"⟩ modules [⟨⟨"/dist/...js"⟩, "", [], false⟩])) := by
  have emission : (Path.mk "/dist").Settled := by decide +kernel
  have output : (Path.mk "/p/q").Settled := by decide +kernel
  have tree : dottedTree.WellFormed :=
    FileTree.wellFormed_of_entries (by decide +kernel) (by decide +kernel)
  have artifact : ∀ a ∈ [Artifact.mk ⟨"/dist/...js"⟩ "" [] false], a.path.Settled := by
    decide +kernel
  have found := Except.eq_ok_of_isSome (x := ((Discovery.mk [".js"] ["index"]).discover
    (m := StateM Memory) ⟨"/dist"⟩ (.ofTree dottedTree)).1) (by decide +kernel) []
  have planned := Except.eq_ok_of_isSome (x := (Planner.mk ⟨"/dist"⟩ ⟨"/p/q"⟩ "package.json").plan
    (Partition.packages ⟨⟨"/dist"⟩, ".js"⟩ (((Discovery.mk [".js"] ["index"]).discover
      (m := StateM Memory) ⟨"/dist"⟩ (.ofTree dottedTree)).1.toOption.getD [])
      [⟨⟨"/dist/...js"⟩, "", [], false⟩])) (by decide +kernel) ⟨[]⟩
  refine ⟨_, _, emission, output, tree, found, artifact, planned, ?_⟩
  exact (safeToWipe_iff (p := ⟨⟨"/dist"⟩, ⟨"/p/q"⟩, "package.json"⟩) emission output tree found
    artifact planned).mpr (by decide +kernel)

/-- The check of the roots overlooks dots: next to the emission root, a package named by two dots
has the root of the whole tree. -/
theorem dotted_root_holds_emission : ∃ (modules : List EmittedModule) (changes : ChangeSet),
    (Path.mk "/dist").Settled ∧ (Path.mk "/p").Settled ∧ dottedTree.WellFormed ∧
    ((Discovery.mk [".js"] ["index"]).discover (m := StateM Memory) ⟨"/dist"⟩
      (.ofTree dottedTree)).1 = .ok modules ∧
    (Planner.mk ⟨"/dist"⟩ ⟨"/p"⟩ "package.json").plan
      (Partition.packages ⟨⟨"/dist"⟩, ".js"⟩ modules []) = .ok changes ∧
    ¬ SafeToWipe changes.directories ((Planner.mk ⟨"/dist"⟩ ⟨"/p"⟩ "package.json").emitted
      (Partition.packages ⟨⟨"/dist"⟩, ".js"⟩ modules [])) := by
  have found := Except.eq_ok_of_isSome (x := ((Discovery.mk [".js"] ["index"]).discover
    (m := StateM Memory) ⟨"/dist"⟩ (.ofTree dottedTree)).1) (by decide +kernel) []
  have planned := Except.eq_ok_of_isSome (x := (Planner.mk ⟨"/dist"⟩ ⟨"/p"⟩ "package.json").plan
    (Partition.packages ⟨⟨"/dist"⟩, ".js"⟩ (((Discovery.mk [".js"] ["index"]).discover
      (m := StateM Memory) ⟨"/dist"⟩ (.ofTree dottedTree)).1.toOption.getD []) []))
    (by decide +kernel) ⟨[]⟩
  refine ⟨_, _, by decide +kernel, by decide +kernel,
    FileTree.wellFormed_of_entries (by decide +kernel) (by decide +kernel), found, planned, ?_⟩
  intro safe
  have held : ((Planner.plan ⟨⟨"/dist"⟩, ⟨"/p"⟩, "package.json"⟩
      (Partition.packages ⟨⟨"/dist"⟩, ".js"⟩ (((Discovery.mk [".js"] ["index"]).discover
        (m := StateM Memory) ⟨"/dist"⟩ (.ofTree dottedTree)).1.toOption.getD [])
        [])).toOption.getD ⟨[]⟩).directories.any (fun root =>
          (Path.mk "/dist").normalize.startsWith root.normalize) = true := by decide +kernel
  obtain ⟨root, hroot, above⟩ := List.any_eq_true.mp held
  exact absurd above (by simp [safe.spares root hroot ⟨"/dist"⟩ List.mem_cons_self])

end Planner
end Apportion
