import Apportion.Proofs.Build.Effect

/-!
The tree that is left. Directories are renewed one after the other, which takes away the files below
them and no others (`file?_of_replaceAll`), and files are then put in place. Files with places of their
own stay as they were written (`file?_of_writeAll`); all of them can be written exactly if nothing is
in the way of any (`writeAll_isOk_iff`).
-/
namespace Apportion
open Memory

namespace FileTree
variable {α : Type} {t : FileTree α} {k l : Key}

/-! ## Directories made anew -/

def renew (t : FileTree α) (k : Key) : FileTree α :=
  (if (t.get? k).isSome then t.remove k else t).mkdirs k

/-- Outside of a renewed directory there are new directories above it at most. -/
theorem get?_renew (t : FileTree α) (outside : ¬ k <+: l) :
    (t.renew k).get? l = if l <+: k then (t.get? l).or (some .directory) else t.get? l := by
  have kept : (if (t.get? k).isSome then t.remove k else t).get? l = t.get? l := by
    split
    · exact get?_remove_of_outside t outside
    · rfl
  rw [renew, get?_mkdirs, kept]

theorem file?_renew (h : t.Rooted) (k l : Key) :
    (t.renew k).file? l = if k <+: l then none else t.file? l := by
  rw [renew, file?_mkdirs]
  by_cases below : k <+: l
  · rw [if_pos below]
    split
    · rw [file?, get?_remove]
      by_cases nil : l = [] <;> simp [nil, below]
    · rename_i absent
      have none : t.get? k = none := Option.not_isSome_iff_eq_none.mp absent
      have vacant : t.isDirectory k = false := by rw [isDirectory, none]
      by_cases e : l = k
      · rw [e, file?, none]
      · rw [file?, h.get?_below vacant below e]
  · rw [if_neg below]
    split
    · exact file?_remove t below
    · rfl

/-- No file comes with a directory. -/
theorem isFile_renew (h : t.isFile l = false) (k : Key) : (t.renew k).isFile l = false := by
  rw [isFile, renew, file?_mkdirs]
  split
  · have none := Option.isNone_iff_eq_none.mp (Option.isSome_eq_false_iff.mp h)
    rw [file?_remove_eq_none none]
    rfl
  · exact h

/-- A renewed directory stands in directories and holds none, if no file was there or above. -/
theorem isDirectory_renew (h : t.Rooted) (free : ∀ l, l <+: k → t.isFile l = false) (l : Key) :
    (t.renew k).isDirectory l = true ↔ l <+: k ∨ (¬ k <+: l ∧ t.isDirectory l = true) := by
  rw [isDirectory_iff, isDirectory_iff]
  by_cases above : l <+: k
  · have made : (t.renew k).get? l = some .directory := by
      have free' : (t.renew k).isFile l = false := isFile_renew (free l above) k
      cases e : (t.renew k).get? l with
      | none =>
        rw [renew, get?_mkdirs, if_pos above] at e
        simp at e
      | some node =>
        cases node with
        | directory => rfl
        | file c =>
          rw [isFile_iff.mpr ⟨c, e⟩] at free'
          cases free'
    simp [made, above]
  · have nil : l ≠ [] := fun e => above (e ▸ List.nil_prefix)
    by_cases below : k <+: l
    · have gone : (t.renew k).get? l = none := by
        rw [renew, get?_mkdirs, if_neg above]
        split
        · rw [get?_remove, if_neg nil, if_pos below]
        · rename_i absent
          have none : t.get? k = none := Option.not_isSome_iff_eq_none.mp absent
          exact h.get?_below (by rw [isDirectory, none]) below fun e => above (e ▸ List.prefix_refl _)
      simp [gone, above, below]
    · simp [get?_renew t below, above, below]

/-! ## Files in the way of each other -/

/-- Nothing is in the way of files at some places: no directory stands there, no file above, and no
place lies above another. -/
structure Unobstructed (t : FileTree α) (places : List Key) : Prop where
  vacant : ∀ k ∈ places, t.isDirectory k = false
  free : ∀ k ∈ places, ∀ l ∈ above k, t.isFile l = false
  apart : ∀ k ∈ places, ∀ l ∈ places, k <+: l → k = l

theorem file?_put_self (vacant : t.isDirectory k = false) (content : α) :
    (t.put k content).file? k = some content := by
  have nil : k ≠ [] := by
    rintro rfl
    rw [isDirectory_nil] at vacant
    cases vacant
  simp [file?, get?_put, nil]

theorem isFile_put (vacant : t.isDirectory k = false) (content : α) :
    (t.put k content).isFile l = true ↔ l = k ∨ t.isFile l = true := by
  by_cases e : l = k
  · subst e
    simp [isFile, file?_put_self vacant]
  · simp [isFile, file?_put t content e, e]

theorem isDirectory_put_iff (vacant : t.isDirectory k = false)
    (free : ∀ l ∈ above k, t.isFile l = false) (content : α) :
    (t.put k content).isDirectory l = true ↔ t.isDirectory l = true ∨ (l <+: k ∧ l ≠ k) := by
  constructor
  · intro h
    by_cases e : l = k
    · subst e
      have file := (isFile_put vacant content (l := l)).mpr (.inl rfl)
      obtain ⟨_, file⟩ := isFile_iff.mp file
      rw [isDirectory_iff, file] at h
      cases h
    · exact (isDirectory_put h).imp_right fun below => ⟨below, e⟩
  · by_cases nil : l = []
    · exact fun _ => nil ▸ isDirectory_nil _
    · rintro (directory | ⟨below, ne⟩)
      · have ne : l ≠ k := by
          rintro rfl
          rw [directory] at vacant
          cases vacant
        rw [isDirectory_iff] at directory ⊢
        rw [get?_put, if_neg nil, if_neg ne, directory]
        split <;> rfl
      · rw [isDirectory_iff, get?_put, if_neg nil, if_neg ne, if_pos below]
        have noFile := free l (mem_above.mpr ⟨nil, below, ne⟩)
        cases e : t.get? l with
        | none => rfl
        | some node =>
          cases node with
          | directory => rfl
          | file c => simp [isFile, file?_eq_some.mpr e] at noFile

/-- It does not matter in which order files come, or how often. -/
theorem Unobstructed.of_mem {places places' : List Key} (h : t.Unobstructed places)
    (sub : ∀ k ∈ places', k ∈ places) : t.Unobstructed places' :=
  ⟨fun k hk => h.vacant k (sub k hk), fun k hk => h.free k (sub k hk),
    fun k hk l hl => h.apart k (sub k hk) l (sub l hl)⟩

/-- Nothing is in the way of several files if nothing is in the way of the first one, nor of the
others once it is there. -/
theorem unobstructed_cons {places : List Key} (content : α) : t.Unobstructed (k :: places) ↔
    t.isDirectory k = false ∧ (∀ l ∈ above k, t.isFile l = false) ∧
      (t.put k content).Unobstructed places := by
  constructor
  · intro h
    have vacant := h.vacant k List.mem_cons_self
    have free := h.free k List.mem_cons_self
    refine ⟨vacant, free, fun l hl => ?_, fun l hl m hm => ?_, fun l hl m hm => ?_⟩
    · rw [← Bool.not_eq_true, isDirectory_put_iff vacant free]
      rintro (directory | ⟨below, ne⟩)
      · rw [h.vacant l (List.mem_cons_of_mem k hl)] at directory
        cases directory
      · exact ne (h.apart l (List.mem_cons_of_mem k hl) k List.mem_cons_self below)
    · rw [← Bool.not_eq_true, isFile_put vacant]
      rintro (rfl | file)
      · obtain ⟨-, below, ne⟩ := mem_above.mp hm
        exact ne (h.apart m List.mem_cons_self l (List.mem_cons_of_mem m hl) below)
      · rw [h.free l (List.mem_cons_of_mem k hl) m hm] at file
        cases file
    · exact h.apart l (List.mem_cons_of_mem k hl) m (List.mem_cons_of_mem k hm)
  · rintro ⟨vacant, free, h⟩
    have nil : k ≠ [] := by
      rintro rfl
      rw [isDirectory_nil] at vacant
      cases vacant
    have kept : ∀ l, (t.put k content).isDirectory l = false →
        t.isDirectory l = false ∧ (l <+: k → l = k) := by
      intro l hl
      rw [← Bool.not_eq_true, isDirectory_put_iff vacant free] at hl
      refine ⟨Bool.eq_false_iff.mpr fun d => hl (.inl d), fun below => ?_⟩
      exact Classical.byContradiction fun ne => hl (.inr ⟨below, ne⟩)
    have put : (t.put k content).isFile k = true := (isFile_put vacant content).mpr (.inl rfl)
    refine ⟨fun l hl => ?_, fun l hl m hm => ?_, fun l hl m hm below => ?_⟩
    · rcases List.mem_cons.mp hl with rfl | hl
      · exact vacant
      · exact (kept l (h.vacant l hl)).1
    · rcases List.mem_cons.mp hl with rfl | hl
      · exact free m hm
      · refine Bool.eq_false_iff.mpr fun file => ?_
        have := h.free l hl m hm
        rw [(isFile_put vacant content).mpr (.inr file)] at this
        cases this
    · rcases List.mem_cons.mp hl with rfl | inside
      · rcases List.mem_cons.mp hm with rfl | hm
        · rfl
        · refine Classical.byContradiction fun ne => ?_
          rw [h.free m hm l (mem_above.mpr ⟨nil, below, ne⟩)] at put
          cases put
      · rcases List.mem_cons.mp hm with rfl | hm
        · exact (kept l (h.vacant l inside)).2 below
        · exact h.apart l inside m hm below

end FileTree

namespace Apply
variable {tree tree' : FileTree String}

/-! ## Directories -/

theorem replaceAt_eq_ok {path : Path} (h : replaceAt path tree = .ok tree') :
    tree' = tree.renew path.place ∧ (tree.Rooted → tree'.Rooted) := by
  unfold replaceAt at h
  split at h
  · rename_i present
    obtain ⟨cleared, removed, created⟩ := Except.bind_eq_ok.mp h
    obtain ⟨rfl, -⟩ := removeAt_eq_ok (Except.mapError_eq_ok.mp removed)
    obtain ⟨rfl, free⟩ := createAt_eq_ok (Except.mapError_eq_ok.mp created)
    refine ⟨by rw [FileTree.renew, if_pos present], fun rooted => ?_⟩
    exact (rooted.remove _).mkdirs free
  · rename_i absent
    obtain ⟨rfl, free⟩ := createAt_eq_ok (Except.mapError_eq_ok.mp h)
    exact ⟨by rw [FileTree.renew, if_neg absent], fun rooted => rooted.mkdirs free⟩

/-- Where no file stands at a path nor above it, there can be a new directory. -/
theorem replaceAt_of_free {path : Path}
    (free : ∀ k, k <+: path.place → tree.isFile k = false) :
    replaceAt path tree = .ok (tree.renew path.place) := by
  have above : ∀ k ∈ FileTree.above path.place ++ [path.place], k <+: path.place := by
    intro k hk
    rcases FileTree.mem_above_or.mp hk with rfl | ⟨-, below⟩
    · exact List.prefix_refl _
    · exact below
  unfold replaceAt FileTree.renew
  by_cases present : (tree.get? path.place).isSome = true
  · have directory : tree.isDirectory path.place = true := by
      have noFile := free path.place (List.prefix_refl _)
      obtain ⟨node, e⟩ := Option.isSome_iff_exists.mp present
      cases node with
      | directory => exact FileTree.isDirectory_iff.mpr e
      | file content =>
        rw [FileTree.isFile_iff.mpr ⟨content, e⟩] at noFile
        cases noFile
    have free' : ∀ k ∈ FileTree.above path.place ++ [path.place],
        (tree.remove path.place).isFile k = false := by
      intro k hk
      have none := Option.isSome_eq_false_iff.mp (free k (above k hk))
      rw [FileTree.isFile, FileTree.file?_remove_eq_none (Option.isNone_iff_eq_none.mp none)]
      rfl
    rw [if_pos present, if_pos present, removeAt, if_pos directory]
    exact congrArg (Except.mapError BuildError.fs) (createAt_of_free free')
  · rw [if_neg present, if_neg present, createAt_of_free fun k hk => free k (above k hk)]
    rfl

/-- Files below the new directories are gone, all others are as they were. -/
theorem file?_of_replaceAll {roots : List Path} (rooted : tree.Rooted)
    (h : roots.foldlM (fun tree path => replaceAt path tree) tree = .ok tree') (k : Key) :
    tree'.file? k = if ∃ root ∈ roots, root.place <+: k then none else tree.file? k := by
  induction roots generalizing tree with
  | nil =>
    cases h
    simp
  | cons path rest ih =>
    rw [List.foldlM_cons] at h
    obtain ⟨between, first, h⟩ := Except.bind_eq_ok.mp h
    obtain ⟨rfl, rooted'⟩ := replaceAt_eq_ok first
    rw [ih (rooted' rooted) h, FileTree.file?_renew rooted]
    by_cases later : ∃ root ∈ rest, root.place <+: k
    · have any : ∃ root ∈ path :: rest, root.place <+: k := by
        obtain ⟨root, hr, below⟩ := later
        exact ⟨root, List.mem_cons_of_mem _ hr, below⟩
      rw [if_pos later, if_pos any]
    · rw [if_neg later]
      simp only [List.mem_cons, exists_eq_or_imp, later, or_false]

def renewed (roots : List Path) (tree : FileTree String) : FileTree String :=
  roots.foldl (fun tree path => tree.renew path.place) tree

theorem replaceAll_of_free {roots : List Path}
    (free : ∀ root ∈ roots, ∀ k, k <+: root.place → tree.isFile k = false) :
    roots.foldlM (fun tree path => replaceAt path tree) tree = .ok (renewed roots tree) := by
  induction roots generalizing tree with
  | nil => rfl
  | cons path rest ih =>
    rw [List.foldlM_cons, replaceAt_of_free (free path List.mem_cons_self)]
    exact ih fun root hr k below =>
      FileTree.isFile_renew (free root (List.mem_cons_of_mem _ hr) k below) _

section
variable {roots : List Path} (rooted : tree.Rooted)
  (free : ∀ root ∈ roots, ∀ k, k <+: root.place → tree.isFile k = false)
  (apart : ∀ a ∈ roots, ∀ b ∈ roots, a.place <+: b.place → a.place = b.place)
include rooted free apart

/-- Directories that are renewed side by side stand in directories and hold none. -/
theorem isDirectory_renewed (k : Key) :
    (renewed roots tree).isDirectory k = true ↔ (∃ root ∈ roots, k <+: root.place) ∨
      ((∀ root ∈ roots, ¬ root.place <+: k) ∧ tree.isDirectory k = true) := by
  induction roots generalizing tree with
  | nil => simp [renewed]
  | cons path rest ih =>
    have first := replaceAt_of_free (free path List.mem_cons_self)
    have step := ih ((replaceAt_eq_ok first).2 rooted)
      (fun root hr l below => FileTree.isFile_renew (free root (List.mem_cons_of_mem _ hr) l below) _)
      fun a ha b hb => apart a (List.mem_cons_of_mem _ ha) b (List.mem_cons_of_mem _ hb)
    rw [renewed, List.foldl_cons]
    refine step.trans ?_
    rw [FileTree.isDirectory_renew rooted (free path List.mem_cons_self)]
    simp only [List.mem_cons, exists_eq_or_imp, forall_eq_or_imp]
    constructor
    · rintro (later | ⟨outside, here | ⟨beside, there⟩⟩)
      · exact .inl (.inr later)
      · exact .inl (.inl here)
      · exact .inr ⟨⟨beside, outside⟩, there⟩
    · rintro ((here | later) | ⟨⟨beside, outside⟩, there⟩)
      · by_cases within : ∃ root ∈ rest, root.place <+: k
        · -- then the two directories are one
          obtain ⟨root, hr, below⟩ := within
          have same := apart root (List.mem_cons_of_mem _ hr) path List.mem_cons_self (below.trans here)
          exact .inl ⟨root, hr, same ▸ here⟩
        · exact .inr ⟨fun root hr below => within ⟨root, hr, below⟩, .inl here⟩
      · exact .inl later
      · exact .inr ⟨outside, .inr ⟨beside, there⟩⟩

end

/-! ## Files -/

theorem actAt_eq_ok {t : Task} (h : t.actAt tree = .ok tree') : ∃ text,
    t.supply.at tree = .ok text ∧ tree' = tree.put t.target.place text ∧
    tree.isDirectory t.target.place = false ∧
    ∀ k ∈ FileTree.above t.target.place, tree.isFile k = false := by
  obtain ⟨text, supplied, written⟩ := Except.bind_eq_ok.mp h
  exact ⟨text, supplied, writeAt_eq_ok (Except.mapError_eq_ok.mp written)⟩

theorem file?_of_untouched {tasks : List Task} {k : Key}
    (h : tasks.foldlM (fun tree t => t.actAt tree) tree = .ok tree')
    (elsewhere : ∀ t ∈ tasks, t.target.place ≠ k) : tree'.file? k = tree.file? k := by
  induction tasks generalizing tree with
  | nil =>
    cases h
    rfl
  | cons t rest ih =>
    rw [List.foldlM_cons] at h
    obtain ⟨between, first, h⟩ := Except.bind_eq_ok.mp h
    obtain ⟨text, -, rfl, -, -⟩ := actAt_eq_ok first
    rw [ih h fun u hu => elsewhere u (List.mem_cons_of_mem t hu),
      FileTree.file?_put _ _ (elsewhere t List.mem_cons_self).symm]

/-- Of several texts that are written to a place, the last one stays. -/
theorem file?_of_last {tasks : List Task} {k : Key}
    (h : tasks.foldlM (fun tree t => t.actAt tree) tree = .ok tree')
    (written : ∃ t ∈ tasks, t.target.place = k) :
    ∃ t ∈ tasks, t.target.place = k ∧ ∃ before text, t.supply.at before = .ok text ∧
      tree'.file? k = some text := by
  induction tasks generalizing tree with
  | nil => simp at written
  | cons t rest ih =>
    rw [List.foldlM_cons] at h
    obtain ⟨between, first, h⟩ := Except.bind_eq_ok.mp h
    by_cases later : ∃ u ∈ rest, u.target.place = k
    · obtain ⟨u, hu, last⟩ := ih h later
      exact ⟨u, List.mem_cons_of_mem t hu, last⟩
    · obtain ⟨text, supplied, rfl, vacant, -⟩ := actAt_eq_ok first
      obtain ⟨u, hu, here⟩ := written
      rcases List.mem_cons.mp hu with rfl | hu
      · refine ⟨u, List.mem_cons_self, here, tree, text, supplied, ?_⟩
        rw [file?_of_untouched h fun v hv same => later ⟨v, hv, same⟩, ← here,
          FileTree.file?_put_self vacant]
      · exact absurd ⟨u, hu, here⟩ later

/-- Files with places of their own have the texts that were supplied for them, and all other files
are as they were. -/
theorem file?_of_writeAll {tasks : List Task}
    (h : tasks.foldlM (fun tree t => t.actAt tree) tree = .ok tree')
    (own : tasks.Pairwise fun t u => t.target.place ≠ u.target.place) :
    (∀ t ∈ tasks, ∃ before text, t.supply.at before = .ok text ∧
      tree'.file? t.target.place = some text) ∧
    ∀ k, (∀ t ∈ tasks, t.target.place ≠ k) → tree'.file? k = tree.file? k := by
  refine ⟨fun t ht => ?_, fun k => file?_of_untouched h⟩
  obtain ⟨u, hu, same, last⟩ := file?_of_last h ⟨t, ht, rfl⟩
  obtain rfl := List.inj_on_of_nodup_map (f := fun t : Task => t.target.place)
    (List.pairwise_map.mpr own) hu ht same
  exact last

/-- What work leaves of a tree: the texts that were supplied, nothing else below the new directories,
and all other files as they were. -/
structure Work.Leaves (w : Work) (tree tree' : FileTree String) : Prop where
  texts : ∀ t ∈ w.tasks, ∃ before text, t.supply.at before = .ok text ∧
    tree'.file? t.target.place = some text
  others : ∀ k, (∀ t ∈ w.tasks, t.target.place ≠ k) →
    tree'.file? k = if ∃ root ∈ w.directories, root.place <+: k then none else tree.file? k

theorem Work.leaves_of_actAt {w : Work} (rooted : tree.Rooted) (h : w.actAt tree = .ok tree')
    (own : w.tasks.Pairwise fun t u => t.target.place ≠ u.target.place) : w.Leaves tree tree' := by
  obtain ⟨cleared, emptied, wrote⟩ := Except.bind_eq_ok.mp h
  obtain ⟨texts, others⟩ := file?_of_writeAll wrote own
  exact ⟨texts, fun k elsewhere => (others k elsewhere).trans (file?_of_replaceAll rooted emptied k)⟩

/-- Files whose texts are known can be written exactly if every text is there and nothing is in the
way. -/
theorem writeAll_isOk_iff {tasks : List Task} (known : ∀ t ∈ tasks, ∃ x, t.supply = .known x) :
    (∃ tree', tasks.foldlM (fun tree t => t.actAt tree) tree = .ok tree') ↔
      (∀ t ∈ tasks, ∃ text, t.supply = .known (.ok text)) ∧
      tree.Unobstructed (tasks.map (·.target.place)) := by
  induction tasks generalizing tree with
  | nil => exact ⟨fun _ => ⟨by simp, ⟨by simp, by simp, by simp⟩⟩, fun _ => ⟨tree, rfl⟩⟩
  | cons t rest ih =>
    have known' : ∀ u ∈ rest, ∃ x, u.supply = .known x := fun u hu =>
      known u (List.mem_cons_of_mem _ hu)
    simp only [List.foldlM_cons, Except.bind_eq_ok, List.map_cons]
    constructor
    · rintro ⟨tree', between, first, h⟩
      obtain ⟨text, supplied, rfl, vacant, free⟩ := actAt_eq_ok first
      obtain ⟨texts, clear⟩ := (ih known').mp ⟨tree', h⟩
      obtain ⟨x, hx⟩ := known t List.mem_cons_self
      refine ⟨fun u hu => ?_, (FileTree.unobstructed_cons text).mpr ⟨vacant, free, clear⟩⟩
      rcases List.mem_cons.mp hu with rfl | hu
      · rw [hx] at supplied
        cases supplied
        exact ⟨text, hx⟩
      · exact texts u hu
    · rintro ⟨texts, clear⟩
      obtain ⟨text, ht⟩ := texts t List.mem_cons_self
      obtain ⟨vacant, free, clear⟩ := (FileTree.unobstructed_cons text).mp clear
      obtain ⟨tree', h⟩ := (ih known').mpr ⟨fun u hu => texts u (List.mem_cons_of_mem _ hu), clear⟩
      refine ⟨tree', _, ?_, h⟩
      unfold Task.actAt
      rw [ht]
      exact congrArg (Except.mapError BuildError.fs) (writeAt_of_free text vacant free)

/-- Where no file stands at the new directories nor above them, work is done exactly if every text is
there and nothing is in the way once the directories are made. -/
theorem Work.isOk_actAt_iff {w : Work} (known : ∀ t ∈ w.tasks, ∃ x, t.supply = .known x)
    (free : ∀ root ∈ w.directories, ∀ k, k <+: root.place → tree.isFile k = false) :
    (∃ tree', w.actAt tree = .ok tree') ↔
      (∀ t ∈ w.tasks, ∃ text, t.supply = .known (.ok text)) ∧
      (renewed w.directories tree).Unobstructed (w.tasks.map (·.target.place)) := by
  rw [← writeAll_isOk_iff known, Work.actAt, replaceAll_of_free free]
  rfl

end Apply
end Apportion
