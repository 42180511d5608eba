import Apportion.Proofs.Build.Matching
import Apportion.Proofs.Build.Written

/-!
Trees that are alike outside of some directories (`FileTree.Alike`). Files differ at most below these
directories, and directories below or above them. If the directories can be made anew in one of two such
trees they can be in the other, and then the trees match (`Apply.exists_replaceAll_of_alike`). What is
done to a tree at and below the directories leaves it alike (`Apply.alike_of_actAt`).
-/
namespace Apportion
open Memory

namespace FileTree
variable {α : Type} {t u v : FileTree α} {roots : List Key} {k : Key}

/-- Whether a place lies below some directory out of several, not at it. -/
def inside (roots : List Key) (k : Key) : Bool := roots.any fun r => r.isPrefixOf k && r != k

theorem inside_iff : inside roots k = true ↔ ∃ r ∈ roots, r <+: k ∧ r ≠ k := by
  simp [inside, List.isPrefixOf_iff_prefix]

/-- No file stands where a directory does. -/
theorem isFile_of_isDirectory (h : t.isDirectory k = true) : t.isFile k = false := by
  rw [isFile, file?, isDirectory_iff.mp h]
  rfl

theorem isDirectory_of_isFile (h : t.isFile k = true) : t.isDirectory k = false := by
  obtain ⟨_, node⟩ := isFile_iff.mp h
  rw [isDirectory, node]

/-- Where neither a file nor a directory stands there is nothing. -/
theorem get?_eq_none (file : t.isFile k = false) (directory : t.isDirectory k = false) :
    t.get? k = none := by
  rcases node : t.get? k with - | (- | content)
  · rfl
  · rw [isDirectory_iff.mpr node] at directory
    cases directory
  · rw [isFile_iff.mpr ⟨content, node⟩] at file
    cases file

/-- The trees differ at most below some directories, where no file stands, and in directories above
them. -/
structure Alike (roots : List Key) (t u : FileTree α) : Prop where
  files : ∀ k, (∀ r ∈ roots, ¬ r <+: k) → t.file? k = u.file? k
  directories : ∀ k, (∀ r ∈ roots, ¬ r <+: k ∧ ¬ k <+: r) → t.isDirectory k = u.isDirectory k
  vacant : ∀ r ∈ roots, t.isFile r = false ∧ u.isFile r = false

namespace Alike

theorem refl (vacant : ∀ r ∈ roots, t.isFile r = false) : Alike roots t t :=
  ⟨fun _ _ => rfl, fun _ _ => rfl, fun r hr => ⟨vacant r hr, vacant r hr⟩⟩

theorem symm (h : Alike roots t u) : Alike roots u t :=
  ⟨fun k out => (h.files k out).symm, fun k out => (h.directories k out).symm,
    fun r hr => (h.vacant r hr).symm⟩

theorem trans (h : Alike roots t u) (h' : Alike roots u v) : Alike roots t v :=
  ⟨fun k out => (h.files k out).trans (h'.files k out),
    fun k out => (h.directories k out).trans (h'.directories k out),
    fun r hr => ⟨(h.vacant r hr).1, (h'.vacant r hr).2⟩⟩

/-- Inside of no directory there are the same files. -/
theorem isFile_eq (h : Alike roots t u) (out : inside roots k = false) :
    t.isFile k = u.isFile k := by
  by_cases at_root : ∃ r ∈ roots, r = k
  · obtain ⟨r, hr, rfl⟩ := at_root
    rw [(h.vacant r hr).1, (h.vacant r hr).2]
  · have apart : ∀ r ∈ roots, ¬ r <+: k := fun r hr below =>
      Bool.eq_false_iff.mp out (inside_iff.mpr ⟨r, hr, below, fun e => at_root ⟨r, hr, e⟩⟩)
    rw [isFile, isFile, h.files k apart]

/-- Away from the directories the trees hold the same. -/
theorem get?_eq (h : Alike roots t u) (away : ∀ r ∈ roots, ¬ r <+: k ∧ ¬ k <+: r) :
    t.get? k = u.get? k :=
  get?_eq_of_node (h.files k fun r hr => (away r hr).1) (h.directories k away)

/-- More entries below the directories make no difference outside of them. -/
theorem append {more : List (Key × Node α)} (below : ∀ e ∈ more, ∃ r ∈ roots, r <+: e.1)
    (vacant : ∀ r ∈ roots, t.isFile r = false ∧ (FileTree.mk (t.entries ++ more)).isFile r = false) :
    Alike roots t ⟨t.entries ++ more⟩ := by
  have same : ∀ k, (∀ r ∈ roots, ¬ r <+: k) → t.get? k = (FileTree.mk (t.entries ++ more)).get? k := by
    intro k outside
    have none : more.find? (fun e => e.1 == k) = none := List.find?_eq_none.mpr fun e he here => by
      obtain ⟨r, hr, leads⟩ := below e he
      exact outside r hr (beq_iff_eq.mp here ▸ leads)
    simp only [get?, List.find?_append, none, Option.or_none]
  refine ⟨fun k outside => ?_, fun k away => ?_, vacant⟩
  · rw [file?, file?, same k outside]
  · rw [isDirectory, isDirectory, same k fun r hr => (away r hr).1]

end Alike
end FileTree

open FileTree

namespace Apply
variable {t u t' : FileTree String} {roots : List Path}

/-! ## Directories made anew -/

/-- No file stood at a directory that was made anew, nor above it. -/
theorem free_of_replaceAt {path : Path} (h : replaceAt path t = .ok t') :
    ∀ k, k <+: path.place → t.isFile k = false := by
  have above : ∀ {k : Key}, k <+: path.place → k ≠ [] → k ∈ FileTree.above path.place ++ [path.place] :=
    fun below ne => FileTree.mem_above_or.mpr (.inr ⟨ne, below⟩)
  intro k below
  by_cases nil : k = []
  · rw [nil]
    rfl
  unfold replaceAt at h
  split at h
  · obtain ⟨cleared, removed, created⟩ := Except.bind_eq_ok.mp h
    obtain ⟨rfl, directory⟩ := removeAt_eq_ok (Except.mapError_eq_ok.mp removed)
    obtain ⟨-, free⟩ := createAt_eq_ok (Except.mapError_eq_ok.mp created)
    by_cases here : k = path.place
    · rw [here]
      exact isFile_of_isDirectory directory
    · have outside : ¬ path.place <+: k := fun under =>
        here (below.eq_of_length_le under.length_le)
      have gone := free k (above below nil)
      rwa [FileTree.isFile, FileTree.file?_remove _ outside] at gone
  · exact (createAt_eq_ok (Except.mapError_eq_ok.mp h)).2 k (above below nil)

theorem rooted_of_replaceAll (rooted : t.Rooted)
    (h : roots.foldlM (fun tree path => replaceAt path tree) t = .ok t') : t'.Rooted := by
  induction roots generalizing t with
  | nil =>
    cases h
    exact rooted
  | cons path rest ih =>
    rw [List.foldlM_cons] at h
    obtain ⟨between, first, h⟩ := Except.bind_eq_ok.mp h
    exact ih ((replaceAt_eq_ok first).2 rooted) h

section
variable (apart : ∀ a ∈ roots, ∀ b ∈ roots, a.place <+: b.place → a.place = b.place)
include apart

/-- Directories side by side can be made anew only if no file stands at them or above. -/
theorem free_of_replaceAll (rooted : t.Rooted)
    (h : roots.foldlM (fun tree path => replaceAt path tree) t = .ok t') :
    ∀ root ∈ roots, ∀ k, k <+: root.place → t.isFile k = false := by
  induction roots generalizing t with
  | nil => simp
  | cons path rest ih =>
    rw [List.foldlM_cons] at h
    obtain ⟨between, first, h⟩ := Except.bind_eq_ok.mp h
    have free := free_of_replaceAt first
    obtain ⟨rfl, rooted'⟩ := replaceAt_eq_ok first
    intro root hr k below
    rcases List.mem_cons.mp hr with rfl | hr
    · exact free k below
    · by_cases within : path.place <+: k
      · -- then the two directories are one
        have same := apart path List.mem_cons_self root (List.mem_cons_of_mem _ hr)
          (within.trans below)
        exact free k (same ▸ below)
      · have later := ih (fun a ha b hb => apart a (List.mem_cons_of_mem _ ha) b
          (List.mem_cons_of_mem _ hb)) (rooted' rooted) h root hr k below
        rwa [FileTree.isFile, FileTree.file?_renew rooted, if_neg within] at later

/-- In trees that are alike outside of directories side by side, the directories can be made anew in
both or in none, in whatever order, and if they are the trees match. -/
theorem exists_replaceAll_of_alike {roots' : List Path} (perm : roots'.Perm roots) (rooted : t.Rooted)
    (rooted' : u.Rooted) (alike : Alike (roots.map (·.place)) t u)
    (h : roots.foldlM (fun tree path => replaceAt path tree) t = .ok t') :
    ∃ u', roots'.foldlM (fun tree path => replaceAt path tree) u = .ok u' ∧ t'.Matches u' := by
  have free := free_of_replaceAll apart rooted h
  have free' : ∀ root ∈ roots', ∀ k, k <+: root.place → u.isFile k = false := by
    intro root hr k below
    rw [← alike.isFile_eq (Bool.eq_false_iff.mpr fun within => ?_)]
    · exact free root (perm.mem_iff.mp hr) k below
    · obtain ⟨r, hr', under, ne⟩ := inside_iff.mp within
      obtain ⟨other, ho, rfl⟩ := List.mem_map.mp hr'
      have same := apart other ho root (perm.mem_iff.mp hr) (under.trans below)
      exact ne (under.eq_of_length_le (same ▸ below.length_le))
  have apart' : ∀ a ∈ roots', ∀ b ∈ roots', a.place <+: b.place → a.place = b.place :=
    fun a ha b hb => apart a (perm.mem_iff.mp ha) b (perm.mem_iff.mp hb)
  obtain rfl := Except.ok.inj ((replaceAll_of_free free).symm.trans h)
  refine ⟨_, replaceAll_of_free free', fun k => FileTree.get?_eq_of_node ?_ ?_⟩
  · rw [file?_of_replaceAll rooted h, file?_of_replaceAll rooted' (replaceAll_of_free free')]
    simp only [perm.mem_iff]
    split
    · rfl
    · rename_i outside
      refine alike.files k fun r hr below => outside ?_
      obtain ⟨root, listed, rfl⟩ := List.mem_map.mp hr
      exact ⟨root, listed, below⟩
  · rw [Bool.eq_iff_iff, isDirectory_renewed rooted free apart, isDirectory_renewed rooted' free' apart']
    simp only [perm.mem_iff]
    refine or_congr_right' fun above => and_congr_right fun outside => ?_
    rw [alike.directories k fun r hr => ?_]
    obtain ⟨root, listed, rfl⟩ := List.mem_map.mp hr
    exact ⟨outside root listed, fun leads => above ⟨root, listed, leads⟩⟩

end

/-! ## What work leaves -/

/-- Directories that are made anew leave a tree alike outside of them. -/
theorem alike_of_replaceAll (rooted : t.Rooted)
    (apart : ∀ a ∈ roots, ∀ b ∈ roots, a.place <+: b.place → a.place = b.place)
    (h : roots.foldlM (fun tree path => replaceAt path tree) t = .ok t') :
    Alike (roots.map (·.place)) t t' ∧ ∀ root ∈ roots, t'.isDirectory root.place = true := by
  have free := free_of_replaceAll apart rooted h
  obtain rfl := Except.ok.inj ((replaceAll_of_free free).symm.trans h)
  have directory := isDirectory_renewed rooted free apart
  have made : ∀ root ∈ roots, (renewed roots t).isDirectory root.place = true := fun root hr =>
    (directory _).mpr (.inl ⟨root, hr, List.prefix_refl _⟩)
  refine ⟨⟨fun k outside => ?_, fun k away => ?_, fun r hr => ?_⟩, made⟩
  · rw [file?_of_replaceAll rooted h, if_neg]
    rintro ⟨root, hr, below⟩
    exact outside _ (List.mem_map_of_mem hr) below
  · have outside : ∀ root ∈ roots, ¬ root.place <+: k := fun root hr =>
      (away _ (List.mem_map_of_mem hr)).1
    have beside : ¬ ∃ root ∈ roots, k <+: root.place := fun ⟨root, hr, leads⟩ =>
      (away _ (List.mem_map_of_mem hr)).2 leads
    rw [Bool.eq_iff_iff, directory, or_iff_right beside, and_iff_right outside]
  · obtain ⟨root, listed, rfl⟩ := List.mem_map.mp hr
    exact ⟨free root listed _ (List.prefix_refl _), isFile_of_isDirectory (made root listed)⟩

/-- Files that are put below directories leave a tree alike outside of them. -/
theorem alike_of_tasks {roots : List Key} {tasks : List Task} (rooted : t.Rooted)
    (made : ∀ r ∈ roots, t.isDirectory r = true)
    (below : ∀ task ∈ tasks, ∃ r ∈ roots, r <+: task.target.place)
    (h : tasks.foldlM (fun tree t => t.actAt tree) t = .ok t') : Alike roots t t' ∧ t'.Rooted := by
  induction tasks generalizing t with
  | nil =>
    cases h
    exact ⟨.refl fun r hr => isFile_of_isDirectory (made r hr), rooted⟩
  | cons task rest ih =>
    rw [List.foldlM_cons] at h
    obtain ⟨between, first, h⟩ := Except.bind_eq_ok.mp h
    obtain ⟨text, -, rfl, vacant, free⟩ := actAt_eq_ok first
    obtain ⟨root, hr, under⟩ := below task List.mem_cons_self
    have directory (k : Key) := isDirectory_put_iff (l := k) vacant free text
    have made' : ∀ r ∈ roots, (t.put task.target.place text).isDirectory r = true := fun r hr =>
      (directory r).mpr (.inl (made r hr))
    obtain ⟨alike, rooted'⟩ := ih (rooted.put vacant free text) made'
      (fun u hu => below u (List.mem_cons_of_mem task hu)) h
    refine ⟨.trans ⟨fun k outside => ?_, fun k away => ?_, fun r hr => ?_⟩ alike, rooted'⟩
    · refine (FileTree.file?_put t text ?_).symm
      rintro rfl
      exact outside root hr under
    · -- what leads to the file is a place at or above the directory, or below it
      rw [Bool.eq_iff_iff, directory]
      refine (or_iff_left fun ⟨leads, _⟩ => ?_).symm
      exact (List.prefix_or_prefix_of_prefix leads under).elim (away root hr).2 (away root hr).1
    · exact ⟨isFile_of_isDirectory (made r hr), isFile_of_isDirectory (made' r hr)⟩

/-- Work that writes only below the directories it makes leaves a tree alike outside of them. -/
theorem alike_of_actAt {w : Work} (rooted : t.Rooted)
    (apart : ∀ a ∈ w.directories, ∀ b ∈ w.directories, a.place <+: b.place → a.place = b.place)
    (below : ∀ task ∈ w.tasks, ∃ r ∈ w.directories.map (·.place), r <+: task.target.place)
    (h : w.actAt t = .ok t') : Alike (w.directories.map (·.place)) t t' ∧ t'.Rooted := by
  obtain ⟨between, cleared, wrote⟩ := Except.bind_eq_ok.mp h
  obtain ⟨alike, made⟩ := alike_of_replaceAll rooted apart cleared
  have made' : ∀ r ∈ w.directories.map (·.place), between.isDirectory r = true := by
    intro r hr
    obtain ⟨root, listed, rfl⟩ := List.mem_map.mp hr
    exact made root listed
  obtain ⟨alike', rooted'⟩ := alike_of_tasks (rooted_of_replaceAll rooted cleared) made' below wrote
  exact ⟨alike.trans alike', rooted'⟩

end Apply
end Apportion
