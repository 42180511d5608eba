import Apportion.Proofs.Build.Granted
import Apportion.Proofs.Build.Orders
import Apportion.Proofs.Build.Rollback

/-!
What is left of work that fails. At every point where orderly work can stop the tree outside of its
directories is told by which of these could be made (`Underway`), and once all of them are removed
again the whole tree is (`Abandoned`), whatever was tried and in whatever order. With what is known of
work that succeeds, the order of the tasks makes no difference at all (`apply_order_free`).
-/
namespace Apportion
open Memory FileTree FailureRule

namespace Apply
variable {rules : List FailureRule} {before tree : FileTree String} {roots made : List Path}
  {path : Path} {k : Key} {s : Memory}

/-! ## One directory -/

/-- A directory can be made anew: this is granted, and no file stands there nor above. -/
def Opens (rules : List FailureRule) (tree : FileTree String) (root : Path) : Prop :=
  Grants rules .createDirectory root.place ∧ ∀ k, k <+: root.place → tree.isFile k = false

theorem tree_createDirectory_of_error {e : BuildError}
    (h : ((attempt (Workspace.createDirectory (m := StateM Memory) path)).run s).1 = .error e) :
    ((attempt (Workspace.createDirectory (m := StateM Memory) path)).run s).2.tree = s.tree := by
  rw [run_attempt] at h ⊢
  obtain ⟨-, ⟨_, -, done, -⟩ | ⟨_, -, same, -⟩⟩ :=
    update_cases .createDirectory path (fun tree => createAt tree path) s
  · rw [show (Workspace.createDirectory (m := StateM Memory) path s).1 = .ok () from done] at h
    cases h
  · exact same

/-- A directory that cannot be made anew is gone at most. -/
theorem tree_replaceDirectory_of_error {e : BuildError}
    (h : ((replaceDirectory (m := StateM Memory) path).run s).1 = .error e) :
    ((replaceDirectory (m := StateM Memory) path).run s).2.tree = s.tree ∨
      s.tree.isDirectory path.place = true ∧
        ((replaceDirectory (m := StateM Memory) path).run s).2.tree = s.tree.remove path.place := by
  rw [run_replaceDirectory] at h ⊢
  by_cases present : (s.tree.get? path.place).isSome = true
  · rw [if_pos present] at h ⊢
    obtain ⟨-, ⟨cleared, ok, done, left⟩ | ⟨cause, failed, left, -⟩⟩ :=
      update_cases .removeDirectory path (fun tree => removeAt tree path) s
    · rw [show (Workspace.removeDirectory (m := StateM Memory) path s).1 = .ok () from done] at h ⊢
      obtain ⟨rfl, directory⟩ := removeAt_eq_ok ok
      exact .inr ⟨directory, (tree_createDirectory_of_error h).trans left⟩
    · rw [show (Workspace.removeDirectory (m := StateM Memory) path s).1 = .error cause from failed]
      exact .inl left
  · rw [if_neg present] at h ⊢
    exact .inl (tree_createDirectory_of_error h)

/-- Under rules that last, a directory is made anew exactly if it can be, and is gone at most if it
cannot. -/
theorem replaceDirectory_cases (lasting : ∀ r ∈ rules, r.skip = 0)
    (removable : ∀ r ∈ rules, r.call ≠ .removeDirectory) (path : Path) (same : s.rules = rules) :
    (Opens rules s.tree path ∧
      replaceAt path s.tree = .ok ((replaceDirectory (m := StateM Memory) path).run s).2.tree) ∨
    (¬ Opens rules s.tree path ∧
      (((replaceDirectory (m := StateM Memory) path).run s).2.tree = s.tree ∨
        s.tree.isDirectory path.place = true ∧
          ((replaceDirectory (m := StateM Memory) path).run s).2.tree =
            s.tree.remove path.place)) := by
  have granted := granted_replaceDirectory lasting removable path
  have done := granted.ok_iff s same
  cases hr : ((replaceDirectory (m := StateM Memory) path).run s).1 with
  | ok _ =>
    have made := granted.acts.sound s hr
    exact .inl ⟨⟨(done.mp hr).1, free_of_replaceAt made⟩, made⟩
  | error e =>
    refine .inr ⟨fun ⟨grants, free⟩ => ?_, tree_replaceDirectory_of_error hr⟩
    rw [done.mpr ⟨grants, _, replaceAt_of_free free⟩] at hr
    cases hr

/-! ## Work under way -/

/-- A tree in the course of some work: at its directories there are the files that were there before,
and outside of them the tree is as it was, with directories above those that were made. -/
structure Underway (before : FileTree String) (roots made : List Path) (tree : FileTree String) :
    Prop where
  rooted : tree.Rooted
  files : ∀ root ∈ roots, tree.file? root.place = before.file? root.place
  outside : ∀ k, (∀ root ∈ roots, ¬ root.place <+: k) → tree.get? k =
    if ∃ root ∈ made, k <+: root.place then (before.get? k).or (some .directory) else before.get? k

section
variable (apart : ∀ a ∈ roots, ∀ b ∈ roots, a.place <+: b.place → a.place = b.place)
include apart

theorem outside_of_above {root : Path} (hr : root ∈ roots) (above : k <+: root.place)
    (ne : k ≠ root.place) : ∀ other ∈ roots, ¬ other.place <+: k := fun other ho under => by
  have same := apart other ho root hr (under.trans above)
  exact ne (above.eq_of_length_le (same ▸ under.length_le))

/-- No file comes or goes at a directory or above it. -/
theorem Underway.isFile_eq (h : Underway before roots made tree) {root : Path} (hr : root ∈ roots)
    (above : k <+: root.place) : tree.isFile k = before.isFile k := by
  by_cases here : k = root.place
  · rw [isFile, isFile, here, h.files root hr]
  · have node := h.outside k (outside_of_above apart hr above here)
    refine congrArg Option.isSome (file?_ext fun content => ?_)
    rw [node]
    split
    · exact or_directory_eq_file
    · rfl

theorem Underway.opens_iff (h : Underway before roots made tree) {root : Path} (hr : root ∈ roots) :
    Opens rules tree root ↔ Opens rules before root :=
  and_congr_right fun _ => forall₂_congr fun k above => by rw [h.isFile_eq apart hr above]

theorem Underway.renew (h : Underway before roots made tree) (hp : path ∈ roots)
    (opens : Opens rules before path) (rooted : (tree.renew path.place).Rooted) :
    Underway before roots (path :: made) (tree.renew path.place) := by
  refine ⟨rooted, fun root hr => ?_, fun k outside => ?_⟩
  · rw [file?_renew h.rooted]
    split
    · rename_i under
      have free := opens.2 path.place (List.prefix_refl _)
      rw [← apart path hp root hr under]
      exact (Option.isNone_iff_eq_none.mp (Option.isSome_eq_false_iff.mp free)).symm
    · exact h.files root hr
  · rw [get?_renew _ (outside path hp), h.outside k outside]
    simp only [List.mem_cons, exists_eq_or_imp]
    by_cases here : k <+: path.place
    · by_cases there : ∃ root ∈ made, k <+: root.place
      · simp [here, there]
      · simp [here, there]
    · simp [here]

theorem Underway.remove (h : Underway before roots made tree) (hp : path ∈ roots)
    (directory : tree.isDirectory path.place = true) :
    Underway before roots made (tree.remove path.place) := by
  refine ⟨h.rooted.remove _, fun root hr => ?_, fun k outside => ?_⟩
  · by_cases under : path.place <+: root.place
    · have none := Option.isNone_iff_eq_none.mp
        (Option.isSome_eq_false_iff.mp (isFile_of_isDirectory directory))
      rw [← apart path hp root hr under, file?_remove_eq_none none, ← h.files path hp, none]
    · rw [file?_remove _ under, h.files root hr]
  · rw [← h.outside k outside, get?_remove_of_outside _ (outside path hp)]

/-- Files below directories that were made change nothing outside of them. -/
theorem Underway.put (h : Underway before roots made tree) (all : ∀ root ∈ roots, root ∈ made)
    {root : Path} (hr : root ∈ roots) (below : root.place <+: k) (ne : root.place ≠ k)
    (vacant : tree.isDirectory k = false) (free : ∀ l ∈ above k, tree.isFile l = false)
    (text : String) : Underway before roots made (tree.put k text) := by
  refine ⟨h.rooted.put vacant free text, fun other ho => ?_, fun l outside => ?_⟩
  · have elsewhere : other.place ≠ k := fun here =>
      ne ((apart root hr other ho (here ▸ below)).trans here)
    rw [file?_put _ _ elsewhere, h.files other ho]
  · have ne : l ≠ k := fun here => outside root hr (here ▸ below)
    have node := h.outside l outside
    rw [get?_put, if_neg ne]
    split
    · rename_i nil
      rw [nil, get?_nil] at node ⊢
      exact node
    · split
      · rename_i above
        have leads := (List.prefix_or_prefix_of_prefix below above).resolve_left (outside root hr)
        rw [if_pos ⟨root, all root hr, leads⟩] at node ⊢
        rw [node, Option.or_assoc]
        rfl
      · exact node

/-- Directories that can be made are made, whatever becomes of the others. -/
theorem underway_createDirectories (lasting : ∀ r ∈ rules, r.skip = 0)
    (removable : ∀ r ∈ rules, r.call ≠ .removeDirectory) {todo : List Path}
    (sub : ∀ path ∈ todo, path ∈ roots) (same : s.rules = rules)
    (h : Underway before roots made s.tree) : ∃ made',
      (∀ root, root ∈ made' ↔ root ∈ made ∨ root ∈ todo ∧ Opens rules before root) ∧
      Underway before roots made' (createDirectories (m := StateM Memory) todo s).2.tree := by
  induction todo generalizing s made with
  | nil => exact ⟨made, by simp, h⟩
  | cons path rest ih =>
    have hp := sub path List.mem_cons_self
    have lasts := (granted_replaceDirectory lasting removable path).lasts s same
    have rest' : ∀ p ∈ rest, p ∈ roots := fun p hp => sub p (List.mem_cons_of_mem _ hp)
    rw [run_createDirectories_cons]
    rcases replaceDirectory_cases lasting removable path same with ⟨opens, done⟩ | ⟨shut, left⟩
    · obtain ⟨renewed, rooted⟩ := replaceAt_eq_ok done
      have opens := (h.opens_iff apart hp).mp opens
      have first := h.renew apart hp opens (renewed ▸ rooted h.rooted)
      obtain ⟨made', mem, later⟩ := ih rest' lasts (renewed ▸ first)
      refine ⟨made', fun root => ?_, later⟩
      rw [mem, List.mem_cons, List.mem_cons]
      constructor
      · rintro ((rfl | hr) | ⟨hr, opens⟩)
        · exact .inr ⟨.inl rfl, opens⟩
        · exact .inl hr
        · exact .inr ⟨.inr hr, opens⟩
      · rintro (hr | ⟨rfl | hr, opens⟩)
        · exact .inl (.inr hr)
        · exact .inl (.inl rfl)
        · exact .inr ⟨hr, opens⟩
    · have first : Underway before roots made
          ((replaceDirectory (m := StateM Memory) path).run s).2.tree := by
        rcases left with e | ⟨directory, e⟩
        · exact e ▸ h
        · exact e ▸ h.remove apart hp directory
      obtain ⟨made', mem, later⟩ := ih rest' lasts first
      refine ⟨made', fun root => ?_, later⟩
      rw [mem, List.mem_cons]
      refine or_congr_right ⟨fun ⟨hr, opens⟩ => ⟨.inr hr, opens⟩, fun ⟨hr, opens⟩ => ⟨?_, opens⟩⟩
      rcases hr with rfl | hr
      · exact absurd ((h.opens_iff apart hp).mpr opens) shut
      · exact hr

end

theorem keeps_underway {w : Work} (orderly : w.Orderly) (all : ∀ root ∈ w.directories, root ∈ made) :
    Keeps (fun s => Underway before w.directories made s.tree) w.write.run := by
  have told : Told fun s => Underway before w.directories made s.tree := fun s s' e _ =>
    (congrArg (Underway before w.directories made) e).mpr
  refine keeps_write told fun t ht text => keeps_update told fun s s' h _ ok => ?_
  obtain ⟨e, vacant, free⟩ := writeAt_eq_ok ok
  obtain ⟨root, hr, below, ne⟩ := orderly.below t ht
  rw [e]
  exact h.put orderly.apart all hr below ne vacant free text

/-- Wherever orderly work stops, the directories that could be made were made. -/
theorem underway_work {w : Work} (orderly : w.Orderly) (rooted : s.tree.Rooted)
    (lasting : ∀ r ∈ s.rules, r.skip = 0) (removable : ∀ r ∈ s.rules, r.call ≠ .removeDirectory) :
    ∃ made, (∀ root, root ∈ made ↔ root ∈ w.directories ∧ Opens s.rules s.tree root) ∧
      Underway s.tree w.directories made ((w.run (m := StateM Memory)).run s).2.tree := by
  have start : Underway s.tree w.directories [] s.tree := ⟨rooted, fun _ _ => rfl, fun k _ => by simp⟩
  obtain ⟨made, mem, under⟩ :=
    underway_createDirectories orderly.apart lasting removable (fun _ h => h) rfl start
  refine ⟨made, fun root => by simpa using mem root, ?_⟩
  have granted := granted_createDirectories lasting removable w.directories
  have done := granted.ok_iff s rfl
  rw [run_work]
  cases hr : (createDirectories (m := StateM Memory) w.directories s).1 with
  | error e => exact under
  | ok _ =>
    obtain ⟨grants, cleared, emptied⟩ := done.mp hr
    have free := free_of_replaceAll orderly.apart rooted emptied
    refine keeps_underway orderly (fun root hroot => ?_) _ under
    exact (mem root).mpr (.inr ⟨hroot, grants root hroot, free root hroot⟩)

/-! ## Work given up -/

/-- A tree after work was given up: at its directories and below them there is nothing but the files
that were in their place before. -/
structure Abandoned (before : FileTree String) (roots made : List Path) (tree : FileTree String) :
    Prop where
  within : ∀ root ∈ roots, ∀ k, k ≠ [] → root.place <+: k →
    tree.get? k = if before.isFile root.place then before.get? k else none
  outside : ∀ k, (∀ root ∈ roots, ¬ root.place <+: k) → tree.get? k =
    if ∃ root ∈ made, k <+: root.place then (before.get? k).or (some .directory) else before.get? k

/-- The directories determine what is left. -/
theorem Abandoned.matches_of_mem {roots' made' : List Path} {tree' : FileTree String}
    (h : Abandoned before roots made tree) (h' : Abandoned before roots' made' tree')
    (same : ∀ p, p ∈ roots' ↔ p ∈ roots) (same' : ∀ p, p ∈ made' ↔ p ∈ made) : tree.Matches tree' := by
  intro k
  by_cases nil : k = []
  · rw [nil, get?_nil, get?_nil]
  · by_cases within : ∃ root ∈ roots, root.place <+: k
    · obtain ⟨root, hr, under⟩ := within
      rw [h.within root hr k nil under, h'.within root ((same root).mpr hr) k nil under]
    · have outside : ∀ root ∈ roots, ¬ root.place <+: k := fun root hr under => within ⟨root, hr, under⟩
      rw [h.outside k outside, h'.outside k fun root hr => outside root ((same root).mp hr)]
      simp only [same']

theorem tree_removeDirectory (removable : Call.removeDirectory ∉ s.rules.map (·.call)) :
    (Workspace.removeDirectory (m := StateM Memory) path s).2.tree =
      if s.tree.isDirectory path.place then s.tree.remove path.place else s.tree := by
  obtain ⟨-, ⟨tree, ok, -, left⟩ | ⟨e, -, left, failed⟩⟩ :=
    update_cases .removeDirectory path (fun tree => removeAt tree path) s
  · obtain ⟨rfl, directory⟩ := removeAt_eq_ok ok
    rw [if_pos directory]
    exact left
  · rcases failed with absent | ⟨r, hr, call⟩
    · rw [if_neg]
      · exact left
      · intro directory
        simp [removeAt, directory] at absent
    · exact absurd (call ▸ List.mem_map_of_mem hr) removable

/-- Removing directories takes away what is at them and below, in whatever order. -/
theorem get?_removeAll {onFailure : Path → FsError → Warning} (ne : k ≠ [])
    (removable : Call.removeDirectory ∉ s.rules.map (·.call)) :
    (removeAll (m := StateM Memory) onFailure roots s).2.tree.get? k =
      if ∃ root ∈ roots, s.tree.isDirectory root.place = true ∧ root.place <+: k then none
      else s.tree.get? k := by
  rw [snd_removeAll]
  induction roots generalizing s with
  | nil => simp
  | cons path rest ih =>
    have calls := (update_cases .removeDirectory path (fun tree => removeAt tree path) s).1
    rw [List.foldl_cons, ih (calls ▸ removable), tree_removeDirectory removable]
    simp only [List.mem_cons, exists_eq_or_imp]
    by_cases directory : s.tree.isDirectory path.place = true
    · by_cases under : path.place <+: k
      · simp [directory, under, get?_remove, ne]
      · -- what is removed before another directory above the place does not lie above it
        have stays : ∀ root : Path, root.place <+: k →
            (s.tree.remove path.place).isDirectory root.place = s.tree.isDirectory root.place := by
          intro root above
          rw [isDirectory, isDirectory,
            get?_remove_of_outside _ fun under' => under (under'.trans above)]
        have iff : (∃ root ∈ rest, (s.tree.remove path.place).isDirectory root.place = true ∧
            root.place <+: k) ↔ ∃ root ∈ rest, s.tree.isDirectory root.place = true ∧
            root.place <+: k :=
          exists_congr fun root => and_congr_right fun _ => and_congr_left fun above => by
            rw [stays root above]
        simp [directory, under, get?_remove, ne, iff]
    · simp [directory]

section
variable (h : Underway before roots made tree) {root : Path} (hr : root ∈ roots)
  (under : root.place <+: k)
include h hr under

/-- Where a file is in the place of a directory, all stays as it was. -/
theorem Underway.get?_of_file (rooted : before.Rooted) (file : before.isFile root.place = true) :
    tree.get? k = before.get? k := by
  have here : tree.isFile root.place = true := by rwa [isFile, h.files root hr]
  by_cases at_root : k = root.place
  · obtain ⟨content, node⟩ := isFile_iff.mp file
    rw [at_root, node, ← file?_eq_some, h.files root hr, file?_eq_some, node]
  · rw [h.rooted.get?_below (isDirectory_of_isFile here) under at_root,
      rooted.get?_below (isDirectory_of_isFile file) under at_root]

/-- Where neither a file nor the directory is there, there is nothing. -/
theorem Underway.get?_of_gone (file : before.isFile root.place = false)
    (gone : tree.isDirectory root.place = false) : tree.get? k = none := by
  by_cases at_root : k = root.place
  · rw [at_root]
    exact get?_eq_none (by rwa [isFile, h.files root hr]) gone
  · exact h.rooted.get?_below gone under at_root

end

/-- Once all directories are removed again, there is nothing of them but the files in their place. -/
theorem Underway.abandoned {onFailure : Path → FsError → Warning} {roots' : List Path}
    (apart : ∀ a ∈ roots, ∀ b ∈ roots, a.place <+: b.place → a.place = b.place)
    (same : ∀ p, p ∈ roots' ↔ p ∈ roots) (rooted : before.Rooted)
    (h : Underway before roots made s.tree)
    (removable : Call.removeDirectory ∉ s.rules.map (·.call)) :
    Abandoned before roots made (removeAll (m := StateM Memory) onFailure roots' s).2.tree := by
  refine ⟨fun root hr k ne under => ?_, fun k outside => ?_⟩
  · rw [get?_removeAll ne removable]
    simp only [same]
    cases file : before.isFile root.place with
    | true =>
      rw [if_neg, h.get?_of_file hr under rooted file]
      · rfl
      · -- a directory above the place would be in the place of the file
        rintro ⟨other, ho, directory, above⟩
        have here : other.place = root.place :=
          (List.prefix_or_prefix_of_prefix above under).elim (apart other ho root hr)
            fun leads => (apart root hr other ho leads).symm
        have there := isFile_of_isDirectory directory
        rw [here, isFile, h.files root hr, ← isFile, file] at there
        cases there
    | false =>
      split
      · rfl
      · rename_i standing
        refine h.get?_of_gone hr under file (Bool.eq_false_iff.mpr fun directory => standing ?_)
        exact ⟨root, hr, directory, under⟩
  · by_cases nil : k = []
    · have node := h.outside k outside
      rw [nil, get?_nil] at node ⊢
      exact node
    · rw [get?_removeAll nil removable, if_neg, h.outside k outside]
      rintro ⟨root, hr, -, under⟩
      exact outside root ((same root).mp hr) under

/-! ## Any order -/

def Work.runOrRemove (w : Work) (roots : List Path) : StateM Memory (Except BuildError Summary) := do
  match ← w.run.run with
  | .ok _ => return .ok w.summary
  | .error e => do
    rollBack roots
    return .error e

/-- Both succeed with the same summary or both fail, and they leave trees that match. -/
structure SameOutcome (x y : Except BuildError Summary × Memory) : Prop where
  summary : ∀ summary, x.1 = .ok summary ↔ y.1 = .ok summary
  tree : x.2.tree.Matches y.2.tree

/-- Orderly work that fails leaves what its directories determine. -/
theorem abandoned_of_error {w : Work} (orderly : w.Orderly) (rooted : s.tree.Rooted)
    (lasting : ∀ r ∈ s.rules, r.skip = 0) (removable : ∀ r ∈ s.rules, r.call ≠ .removeDirectory)
    (same : ∀ p, p ∈ roots ↔ p ∈ w.directories) {e : BuildError}
    (failed : ((w.run (m := StateM Memory)).run s).1 = .error e) :
    (w.runOrRemove roots s).1 = .error e ∧
    ∃ made, (∀ root, root ∈ made ↔ root ∈ w.directories ∧ Opens s.rules s.tree root) ∧
      Abandoned s.tree w.directories made (w.runOrRemove roots s).2.tree := by
  obtain ⟨made, mem, under⟩ := underway_work orderly rooted lasting removable
  have lasts := (granted_work lasting removable orderly.known).lasts s rfl
  have removable' : Call.removeDirectory ∉
      ((w.run (m := StateM Memory)).run s).2.rules.map (·.call) := fun mem => by
    obtain ⟨r, hr, call⟩ := List.mem_map.mp (lasts ▸ mem)
    exact removable r hr call
  unfold Work.runOrRemove
  rw [run_bind, failed]
  exact ⟨rfl, made, mem, under.abandoned orderly.apart
    (fun p => List.mem_reverse.trans (same p)) rooted removable'⟩

/-- Orderly work that succeeds does so in every order, and leaves the same. -/
theorem run_of_reorders {w w' : Work} (orderly : w.Orderly) (re : w.Reorders w')
    (rooted : s.tree.Rooted) (lasting : ∀ r ∈ s.rules, r.skip = 0)
    (removable : ∀ r ∈ s.rules, r.call ≠ .removeDirectory)
    (done : ((w.run (m := StateM Memory)).run s).1 = .ok ()) :
    ((w'.run (m := StateM Memory)).run s).1 = .ok () ∧
      ((w.run (m := StateM Memory)).run s).2.tree.Matches
        ((w'.run (m := StateM Memory)).run s).2.tree := by
  have granted := granted_work lasting removable orderly.known
  have granted' := granted_work lasting removable (orderly.of_reorders re).known
  obtain ⟨⟨create, write⟩, -⟩ := (granted.ok_iff s rfl).mp done
  obtain ⟨u', acted, same⟩ := exists_actAt_of_reorders orderly re rooted (granted.acts.sound s done)
  have done' := (granted'.ok_iff s rfl).mpr
    ⟨⟨fun root hr => create root (re.directories.mem_iff.mp hr),
      fun t ht => write t (re.tasks.mem_iff.mp ht)⟩, u', acted⟩
  obtain rfl := Except.ok.inj (acted.symm.trans (granted'.acts.sound s done'))
  exact ⟨done', same⟩

theorem run_runOrRemove (w : Work) (roots : List Path) (s : Memory) : w.runOrRemove roots s =
    match (w.run (m := StateM Memory)).run s with
    | (.ok _, s') => (.ok w.summary, s')
    | (.error e, s') => (.error e, (rollBack (m := StateM Memory) roots s').2) := by
  simp only [Work.runOrRemove, run_bind]
  cases (w.run (m := StateM Memory)).run s with
  | mk result s' => cases result <;> rfl

/-- Orderly work comes out the same in every order, and also when its directories are removed in
another order. -/
theorem sameOutcome_of_reorders {w w' : Work} (orderly : w.Orderly) (re : w.Reorders w')
    (rooted : s.tree.Rooted) (lasting : ∀ r ∈ s.rules, r.skip = 0)
    (removable : ∀ r ∈ s.rules, r.call ≠ .removeDirectory)
    (perm : roots.Perm w.directories) :
    SameOutcome (w.runOrRollBack (m := StateM Memory) s) (w'.runOrRemove roots s) := by
  have orderly' := orderly.of_reorders re
  rw [show w.runOrRollBack (m := StateM Memory) s = w.runOrRemove w.directories s from rfl]
  cases hr : ((w.run (m := StateM Memory)).run s).1 with
  | ok _ =>
    obtain ⟨done, same⟩ := run_of_reorders orderly re rooted lasting removable hr
    rw [run_runOrRemove, run_runOrRemove]
    cases h : (w.run (m := StateM Memory)).run s
    cases h' : (w'.run (m := StateM Memory)).run s
    rw [h] at hr same
    rw [h'] at done same
    cases hr
    cases done
    exact ⟨fun _ => by rw [re.summary], same⟩
  | error e =>
    cases hr' : ((w'.run (m := StateM Memory)).run s).1 with
    | ok _ =>
      have done := (run_of_reorders orderly' re.symm rooted lasting removable hr').1
      rw [hr] at done
      cases done
    | error e' =>
      obtain ⟨failed, made, mem, left⟩ :=
        abandoned_of_error orderly rooted lasting removable (fun _ => Iff.rfl) hr
      obtain ⟨failed', made', mem', left'⟩ := abandoned_of_error orderly' rooted lasting removable
        (fun p => perm.mem_iff.trans re.directories.mem_iff.symm) hr'
      refine ⟨fun _ => by simp [failed, failed'], left.matches_of_mem left' (fun p => ?_) fun p => ?_⟩
      · exact re.directories.mem_iff
      · rw [mem, mem', re.directories.mem_iff]

/-- The order of the tasks in each list makes no difference, and neither does the order in which
directories are removed again: independent changes are made in every order or in none, with the same
summary, and leave the same files and directories, also when they fail because of rules for places. -/
theorem apply_order_free (mark : String) (artifacts : List Artifact) (changes : ChangeSet) (s : Memory)
    (independent : changes.Independent artifacts) (rooted : s.tree.Rooted)
    (rules : ∀ r ∈ s.rules, r.skip = 0 ∧ r.call ≠ .removeDirectory) :
    ∃ paths, changes.destinations = .ok paths ∧ ∀ w roots,
      (work mark artifacts changes paths).Reorders w → roots.Perm changes.directories →
      SameOutcome (apply (m := StateM Memory) mark artifacts changes s) (w.runOrRemove roots s) := by
  obtain ⟨paths, destined⟩ := independent.destined
  refine ⟨paths, destined, fun w roots re perm => ?_⟩
  have orderly := orderly_of_independent mark independent destined
  simp only [apply, destined]
  exact sameOutcome_of_reorders orderly re rooted (fun r hr => (rules r hr).1)
    (fun r hr => (rules r hr).2) perm

/-- A package with a file, and one without. -/
def twoPackages : ChangeSet :=
  ⟨[.createDirectory ⟨"/p/a"⟩, .writeManifest ⟨"/p/a/package.json"⟩ "\x7b\x7d",
    .createDirectory ⟨"/p/b"⟩, .writeManifest ⟨"/p/b/package.json"⟩ "\x7b\x7d",
    .move ⟨"/p/build/a.js"⟩ ⟨"/p/a/a.js"⟩]⟩

def oneArtifact : List Artifact := [⟨⟨"/p/build/a.js"⟩, "one", [], false⟩]

/-- An older package is there, and the manifest of the other one cannot be written. -/
def olderPackage : Memory where
  tree := ⟨[(["p"], .directory), (["p", "a"], .directory), (["p", "a", "old.js"], .file "zero")]⟩
  rules := [⟨.write, ["p", "b", "package.json"], false, 0, .permissionDenied⟩]
  log := []

/-- In the order of the plan a manifest is there when the work stops, in the opposite order none is; once
the work is given up the same is left. -/
theorem apply_order_free_backwards : twoPackages.Independent oneArtifact ∧ olderPackage.tree.Rooted ∧
    (∀ r ∈ olderPackage.rules, r.skip = 0 ∧ r.call ≠ .removeDirectory) ∧
    (apply (m := StateM Memory) "node:" oneArtifact twoPackages olderPackage).1.toOption = none ∧
    ∃ paths w, twoPackages.destinations = .ok paths ∧
      w = work "node:" oneArtifact twoPackages paths ∧
      SameOutcome (apply (m := StateM Memory) "node:" oneArtifact twoPackages olderPackage)
        (Work.runOrRemove ⟨w.directories.reverse, w.manifests.reverse, w.revisions.reverse,
          w.compositions.reverse, w.copies.reverse⟩ twoPackages.directories olderPackage) := by
  have independent : twoPackages.Independent oneArtifact :=
    ⟨by decide +kernel, by decide +kernel, by decide +kernel, by decide +kernel, by decide +kernel,
      by decide +kernel⟩
  have rooted : olderPackage.tree.Rooted :=
    (wellFormed_of_entries (by decide +kernel) (by decide +kernel)).rooted
  have rules : ∀ r ∈ olderPackage.rules, r.skip = 0 ∧ r.call ≠ .removeDirectory := by decide +kernel
  have fails : (apply (m := StateM Memory) "node:" oneArtifact twoPackages olderPackage).1.toOption.isNone
      = true := by decide +kernel
  obtain ⟨paths, destined, same⟩ :=
    apply_order_free "node:" oneArtifact twoPackages olderPackage independent rooted rules
  refine ⟨independent, rooted, rules, Option.isNone_iff_eq_none.mp fails, paths, _, destined, rfl, ?_⟩
  exact same _ _ ⟨List.reverse_perm _, List.reverse_perm _, List.reverse_perm _, List.reverse_perm _,
    List.reverse_perm _⟩ (.refl _)

end Apply
end Apportion
