import Apportion.Discovery
import Apportion.Proofs.Package
import Apportion.Proofs.PathMap
import Apportion.Proofs.Path.Normal
import Apportion.Proofs.Workspace.Calls
import Mathlib.Data.String.Basic

/-!
Modules of a discovered tree. Finding modules asks the tree at each path that the root holds, and does
nothing else (`run_classify`). Whatever the workspace holds and whichever calls fail, a module that is
found is a code file or a directory right below the root, under a single name (`stands_of_discover`).
-/
namespace Apportion

/-! ## Lists of directories -/

namespace FileTree
variable {α : Type} {t u : FileTree α} {k : Key} {s : String}

theorem childName_eq_some {entry : Key} (h : childName k entry = some s) : entry = k ++ [s] := by
  unfold childName at h
  split at h
  · rename_i below
    obtain ⟨more, rfl⟩ := List.isPrefixOf_iff_prefix.mp below
    split at h
    · rename_i name single
      rw [List.drop_left] at single
      cases h
      rw [single]
    · cases h
  · cases h

theorem get?_of_mem_children (h : s ∈ t.children k) : (t.get? (k ++ [s])).isSome = true := by
  unfold children at h
  rw [List.mem_mergeSort, List.mem_eraseDups] at h
  obtain ⟨e, he, name⟩ := List.mem_filterMap.mp h
  have := get?_isSome_of_mem he
  rwa [childName_eq_some name] at this

theorem mem_children_iff : s ∈ t.children k ↔ (t.get? (k ++ [s])).isSome = true := by
  refine ⟨get?_of_mem_children, fun present => ?_⟩
  obtain ⟨node, there⟩ := Option.isSome_iff_exists.mp present
  have mem := exists_mem_of_get? (by simp) there
  unfold children
  rw [List.mem_mergeSort, List.mem_eraseDups]
  refine List.mem_filterMap.mpr ⟨_, mem, ?_⟩
  have below : k.isPrefixOf (k ++ [s]) = true := List.isPrefixOf_iff_prefix.mpr (List.prefix_append _ _)
  simp [childName, below]

/-- What a directory holds is listed by name, whatever the order of the entries. -/
theorem children_congr (h : ∀ s, (t.get? (k ++ [s])).isSome = (u.get? (k ++ [s])).isSome) :
    t.children k = u.children k := by
  have sorted (t : FileTree α) : (t.children k).Pairwise fun a b => a ≤ b := by
    have ordered := @List.pairwise_mergeSort String (fun a b => decide (a ≤ b))
      (fun a b c ab bc => by simpa using le_trans (of_decide_eq_true ab) (of_decide_eq_true bc))
      (fun a b => by simpa using le_total a b)
      ((t.entries.filterMap fun e => childName k e.1).eraseDups)
    simpa [children] using ordered
  have nodup (t : FileTree α) : (t.children k).Nodup :=
    ((List.mergeSort_perm _ _).nodup_iff).mpr (List.nodup_eraseDups _)
  have perm : (t.children k).Perm (u.children k) :=
    (List.perm_ext_iff_of_nodup (nodup t) (nodup u)).mpr fun s => by
      rw [mem_children_iff, mem_children_iff, h]
  exact perm.eq_of_pairwise (fun a b _ _ ab ba => le_antisymm ab ba) (sorted t) (sorted u)
end FileTree

theorem Memory.of_listAt {t : FileTree String} {root : Path} {paths : List Path}
    (h : listAt t root = .ok paths) :
    ∀ path ∈ paths, ∃ s, path = root.join ⟨s⟩ ∧ (t.get? (root.place ++ [s])).isSome = true := by
  unfold listAt at h
  split at h
  · cases h
    intro path hp
    obtain ⟨s, hs, rfl⟩ := List.mem_map.mp hp
    exact ⟨s, rfl, FileTree.get?_of_mem_children hs⟩
  · cases h

theorem Memory.mem_of_listAt {t : FileTree String} {root : Path} {paths : List Path}
    (h : listAt t root = .ok paths) {s : String} (present : (t.get? (root.place ++ [s])).isSome = true) :
    root.join ⟨s⟩ ∈ paths := by
  unfold listAt at h
  split at h
  · cases h
    exact List.mem_map_of_mem (FileTree.mem_children_iff.mpr present)
  · cases h

/-! ## Searches -/

namespace Resolver
open Memory

theorem run_isFile (path : Path) (s : Memory) :
    isFile (m := StateM Memory) path s = (s.tree.isFile path.place, s) := by
  by_cases present : (s.tree.get? path.place).isSome = true
  · obtain ⟨node, there⟩ := Option.isSome_iff_exists.mp present
    simp only [isFile, run_bind, run_isPresent, present, ↓reduceIte, run_isDirectory, run_pure]
    rw [FileTree.isDirectory, FileTree.isFile, FileTree.file?, there]
    cases node <;> rfl
  · have absent := Option.not_isSome_iff_eq_none.mp present
    simp only [isFile, run_bind, run_isPresent, Bool.false_eq_true, ↓reduceIte, run_pure,
      FileTree.isFile, FileTree.file?, absent, Option.isSome_none]

theorem run_firstFile (paths : List Path) (s : Memory) :
    firstFile (m := StateM Memory) paths s = (paths.find? fun p => s.tree.isFile p.place, s) := by
  induction paths with
  | nil => rfl
  | cons path rest ih =>
    simp only [firstFile, run_bind, run_isFile, List.find?_cons]
    cases s.tree.isFile path.place with
    | true => rfl
    | false => exact ih

end Resolver

/-! ## Modules -/

def EmittedModule.isFile : EmittedModule → Bool
  | .file _ => true
  | .directory _ _ => false

namespace Discovery
variable {d : Discovery} {root : Path} {s : Memory}

/-- The entry point that a directory has in a tree, relative to the root. -/
def entryIn (d : Discovery) (tree : FileTree String) (root directory : Path) : Option Path :=
  ((d.entries directory).find? fun p => tree.isFile p.place).bind fun p => p.stripStart root

/-- The entry points of a directory right below a root, by the names that they are made of. -/
theorem exists_of_mem_entries {name : String} (isName : IsName name) {entry : Path}
    (h : entry ∈ d.entries (root.join ⟨name⟩)) : ∃ base ∈ d.entryCandidates ++ [name],
      ∃ x ∈ d.codeExtensions, entry = (root.join ⟨name⟩).join ⟨base ++ x⟩ := by
  have last : (root.join ⟨name⟩).fileName = some name := by
    simp [Path.fileName, Path.components_join_name _ isName]
  unfold entries at h
  rw [last] at h
  obtain ⟨base, hb, h⟩ := List.mem_flatMap.mp h
  obtain ⟨x, hx, rfl⟩ := List.mem_map.mp h
  exact ⟨base, hb, x, hx, rfl⟩

def moduleAt (d : Discovery) (tree : FileTree String) (root path : Path) : Option EmittedModule :=
  (path.stripStart root).bind fun relative =>
    if tree.isDirectory path.place then some (.directory relative (d.entryIn tree root path))
    else if d.isCode path then some (.file relative) else none

/-- Paths are told apart by what the tree has at each. -/
theorem run_classify (paths : List Path) (s : Memory) :
    d.classify (m := StateM Memory) root paths s =
      (((paths.filterMap (d.moduleAt s.tree root)).filter (·.isFile),
        (paths.filterMap (d.moduleAt s.tree root)).filter (!·.isFile)), s) := by
  induction paths with
  | nil => rfl
  | cons path rest ih =>
    cases strip : path.stripStart root with
    | none =>
      have nothing : d.moduleAt s.tree root path = none := by simp [moduleAt, strip]
      rw [List.filterMap_cons_none nothing, ← ih, classify, strip]
    | some relative =>
      simp only [classify, strip, Memory.run_bind, Memory.run_isDirectory]
      split
      · rename_i directory
        have here : d.moduleAt s.tree root path =
            some (.directory relative (d.entryIn s.tree root path)) := by
          simp [moduleAt, strip, directory]
        simp only [findEntry, Memory.run_bind, Resolver.run_firstFile, Memory.run_pure, ih,
          List.filterMap_cons_some here]
        rfl
      · rename_i other
        simp only [Memory.run_bind, Memory.run_pure, ih]
        by_cases code : d.isCode path = true
        · have here : d.moduleAt s.tree root path = some (.file relative) := by
            simp [moduleAt, strip, other, code]
          rw [if_pos code, List.filterMap_cons_some here]
          rfl
        · have nothing : d.moduleAt s.tree root path = none := by
            simp [moduleAt, strip, other, code]
          rw [if_neg code, List.filterMap_cons_none nothing]

/-- What is found among the given paths, files before directories. -/
def modulesAt (d : Discovery) (tree : FileTree String) (root : Path) (paths : List Path) :
    List EmittedModule :=
  (paths.filterMap (d.moduleAt tree root)).filter (·.isFile) ++
    (paths.filterMap (d.moduleAt tree root)).filter (!·.isFile)

theorem mem_modulesAt {tree : FileTree String} {paths : List Path} {module : EmittedModule} :
    module ∈ d.modulesAt tree root paths ↔ ∃ path ∈ paths, d.moduleAt tree root path = some module := by
  rw [modulesAt, ← List.mem_filterMap, List.mem_append, List.mem_filter, List.mem_filter]
  cases module.isFile <;> simp

theorem run_discover {paths : List Path} (there : s.tree.isDirectory root.place = true)
    (listed : (Workspace.list (m := StateM Memory) root s).1 = .ok paths) :
    (d.discover (m := StateM Memory) root s).1 = .ok (d.modulesAt s.tree root paths) := by
  have same : (Workspace.list (m := StateM Memory) root s).2.tree = s.tree :=
    congrArg (·.tree) (Memory.query_snd (s := s) fun tree => Memory.listAt tree root)
  simp only [discover, Memory.run_bind, Memory.run_isDirectory, there, Bool.not_true,
    Bool.false_eq_true, ↓reduceIte, listed, Memory.run_pure, run_classify, same]
  rfl

theorem run_discover_ofTree {tree : FileTree String} {paths : List Path}
    (listed : Memory.listAt tree root = .ok paths) :
    (d.discover (m := StateM Memory) root (.ofTree tree)).1 = .ok (d.modulesAt tree root paths) := by
  have there : tree.isDirectory root.place = true := by
    by_contra none
    rw [Memory.listAt, if_neg none] at listed
    cases listed
  exact run_discover (s := .ofTree tree) there listed

/-- Modules are sought among what the root holds. -/
theorem discover_eq_ok {modules : List EmittedModule}
    (h : (d.discover (m := StateM Memory) root s).1 = .ok modules) :
    ∃ paths, Memory.listAt s.tree root = .ok paths ∧ modules = d.modulesAt s.tree root paths := by
  cases there : s.tree.isDirectory root.place with
  | false =>
    simp only [discover, Memory.run_bind, Memory.run_isDirectory, there] at h
    cases h
  | true =>
    cases listed : (Workspace.list (m := StateM Memory) root s).1 with
    | error e =>
      simp only [discover, Memory.run_bind, Memory.run_isDirectory, there, Bool.not_true,
        Bool.false_eq_true, ↓reduceIte, listed] at h
      cases h
    | ok paths =>
      rw [run_discover there listed] at h
      refine ⟨paths, ?_, (Except.ok.inj h).symm⟩
      rcases Memory.query_cases (s := s) (fun tree => Memory.listAt tree root) with
        e | ⟨⟨e, failed⟩, -⟩
      · exact e.symm.trans listed
      · cases failed.symm.trans listed

/-- Every code file right below the root is found. -/
theorem exists_file_of_discover {modules : List EmittedModule}
    (h : (d.discover (m := StateM Memory) root s).1 = .ok modules) {name : String} (isName : IsName name)
    (file : s.tree.isFile (root.place ++ [name]) = true)
    (code : d.codeExtensions.contains (Path.extensionOf name) = true) :
    ∃ path, .file path ∈ modules ∧ path.components = [.name name] := by
  obtain ⟨paths, listed, rfl⟩ := discover_eq_ok h
  obtain ⟨content, there⟩ := FileTree.isFile_iff.mp file
  have whole := Path.components_join_name root isName
  obtain ⟨relative, strip, single⟩ := Path.exists_stripStart whole
  refine ⟨relative, mem_modulesAt.mpr ⟨_, Memory.mem_of_listAt listed (by rw [there]; rfl), ?_⟩, single⟩
  have last : (root.join ⟨name⟩).fileName = some name := by simp [Path.fileName, whole]
  have plain : s.tree.isDirectory (root.join ⟨name⟩).place = false := by
    rw [Path.place_join_name root isName, FileTree.isDirectory, there]
  have own : d.isCode (root.join ⟨name⟩) = true := by
    rwa [isCode, Path.extension, last]
  simp [moduleAt, strip, plain, own]

/-- What a tree has right below a root: a file of code, or a directory with its entry point. -/
inductive Stands (d : Discovery) (tree : FileTree String) (root : Path) : EmittedModule → Prop
  | file {name : String} {path : Path} (single : path.components = [.name name])
      (plain : tree.isDirectory (root.place ++ [name]) = false)
      (code : d.codeExtensions.contains (Path.extensionOf name) = true) : Stands d tree root (.file path)
  | directory {name : String} {path : Path} (single : path.components = [.name name])
      (there : tree.isDirectory (root.place ++ [name]) = true) :
      Stands d tree root (.directory path (d.entryIn tree root (root.join ⟨name⟩)))

theorem Stands.shallow {tree : FileTree String} {module : EmittedModule}
    (h : d.Stands tree root module) : module.Shallow := by
  cases h with
  | file single => exact ⟨_, single⟩
  | directory single => exact ⟨_, single⟩

/-- In a tree of proper names, a module that is found stands right below the root. -/
theorem stands_of_discover (named : s.tree.WellFormed) {modules : List EmittedModule}
    (h : (d.discover (m := StateM Memory) root s).1 = .ok modules) :
    ∀ module ∈ modules, d.Stands s.tree root module := by
  obtain ⟨paths, listed, rfl⟩ := discover_eq_ok h
  intro module hm
  obtain ⟨path, hp, here⟩ := mem_modulesAt.mp hm
  obtain ⟨name, rfl, present⟩ := Memory.of_listAt listed path hp
  have isName : IsName name := named.named _ present name (by simp)
  have whole := Path.components_join_name root isName
  obtain ⟨relative, strip, told⟩ := Option.bind_eq_some_iff.mp here
  have below := (Path.components_of_stripStart strip).2
  rw [whole] at below
  have single := (List.append_cancel_left below).symm
  rw [Path.place_join_name root isName] at told
  split at told
  · rename_i there
    cases told
    exact .directory single there
  · rename_i other
    split at told
    · rename_i code
      cases told
      have last : (root.join ⟨name⟩).fileName = some name := by simp [Path.fileName, whole]
      refine .file single (by simpa using other) ?_
      rwa [isCode, Path.extension, last] at code
    · cases told

/-- A module that is found has a single name below the root. -/
theorem shallow_of_discover (named : s.tree.WellFormed) {modules : List EmittedModule}
    (h : (d.discover (m := StateM Memory) root s).1 = .ok modules) :
    ∀ module ∈ modules, module.Shallow := fun module hm =>
  (stands_of_discover named h module hm).shallow

end Discovery
end Apportion
