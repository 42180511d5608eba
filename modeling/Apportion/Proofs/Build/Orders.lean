import Apportion.Proofs.Build.Alike
import Apportion.Proofs.Build.Work

/-!
The same work in another order. Within each list the tasks can be done in any order if directories lie
side by side and the files of a list have places of their own (`Work.Orderly`): if the work can be done
in one order it can be in every other, and the trees that are left match (`exists_actAt_of_reorders`).
The work of independent changes is orderly (`orderly_of_independent`).
-/
namespace Apportion
open Memory FileTree

/-- Changes for some artifacts that do not touch each other: every file moves once and is an artifact,
directories lie side by side, and each file that is written has a place of its own, below a new
directory. -/
structure ChangeSet.Independent (changes : ChangeSet) (artifacts : List Artifact) : Prop where
  distinct : artifacts.Pairwise fun a b => a.path.components ≠ b.path.components
  sources : changes.moves.Pairwise fun e f => e.1.components ≠ f.1.components
  listed : ∀ e ∈ changes.moves, ∃ a ∈ artifacts, a.path.components = e.1.components
  directories : ∀ a ∈ changes.directories, ∀ b ∈ changes.directories,
    a.place <+: b.place → a.place = b.place
  writes : changes.writes.Pairwise fun p q => p.place ≠ q.place
  below : ∀ p ∈ changes.writes, ∃ root ∈ changes.directories,
    root.place <+: p.place ∧ root.place ≠ p.place

namespace ChangeSet.Independent
variable {artifacts : List Artifact} {changes : ChangeSet} (h : changes.Independent artifacts)
include h

theorem targets : changes.moves.Pairwise fun e f => e.2.place ≠ f.2.place := by
  have targets := (List.pairwise_append.mp h.writes).2.1
  rwa [List.pairwise_map] at targets

theorem destined : ∃ paths, changes.destinations = .ok paths := by
  have apart : changes.moves.Pairwise PathMap.Apart := h.sources.imp₂ (fun e f source target =>
    ⟨source, fun same => target (by rw [Path.place_eq, Path.place_eq, same])⟩) h.targets
  have passes := (PathMap.check_eq_ok_iff [] changes.moves).mpr ⟨by simp, apart⟩
  unfold destinations PathMap.ofPairs
  rw [passes]
  exact ⟨_, rfl⟩

/-- Files that go to the same place come from the same place. -/
theorem source_eq {paths : PathMap} (destined : changes.destinations = .ok paths)
    {p q target other : Path} (hp : paths.get? p = some target) (hq : paths.get? q = some other)
    (same : target.place = other.place) : p.components = q.components := by
  obtain ⟨p', moved, ep⟩ := (PathMap.get?_eq_some_iff destined).mp hp
  obtain ⟨q', moved', eq⟩ := (PathMap.get?_eq_some_iff destined).mp hq
  have one : (p', target) = (q', other) :=
    List.inj_on_of_nodup_map (f := fun e : Path × Path => e.2.place) (List.pairwise_map.mpr h.targets)
      moved moved' same
  rw [← ep, ← eq, (Prod.mk.inj one).1]

end ChangeSet.Independent

namespace Apply
variable {t t' : FileTree String}

/-! ## Orders -/

/-- The same tasks in each list, maybe in another order. -/
structure Work.Reorders (w w' : Work) : Prop where
  directories : w'.directories.Perm w.directories
  manifests : w'.manifests.Perm w.manifests
  revisions : w'.revisions.Perm w.revisions
  compositions : w'.compositions.Perm w.compositions
  copies : w'.copies.Perm w.copies

namespace Work.Reorders
variable {w w' : Work}

theorem symm (h : w.Reorders w') : w'.Reorders w :=
  ⟨h.directories.symm, h.manifests.symm, h.revisions.symm, h.compositions.symm, h.copies.symm⟩

theorem tasks (h : w.Reorders w') : w'.tasks.Perm w.tasks :=
  ((h.manifests.append h.revisions).append h.compositions).append h.copies

theorem summary (h : w.Reorders w') : w'.summary = w.summary := by
  simp only [Work.summary, h.directories.length_eq, h.manifests.length_eq, h.revisions.length_eq,
    h.compositions.length_eq, h.copies.length_eq]

end Work.Reorders

def Own (tasks : List Task) : Prop := tasks.Pairwise fun t u => t.target.place ≠ u.target.place

theorem Own.perm {tasks tasks' : List Task} (h : Own tasks) (perm : tasks'.Perm tasks) : Own tasks' :=
  (perm.pairwise_iff Ne.symm).mpr h

/-- Work with directories side by side, whose files lie below these, with texts that are known and, in
each list, with places of their own. -/
structure Work.Orderly (w : Work) : Prop where
  apart : ∀ a ∈ w.directories, ∀ b ∈ w.directories, a.place <+: b.place → a.place = b.place
  below : ∀ t ∈ w.tasks, ∃ root ∈ w.directories,
    root.place <+: t.target.place ∧ root.place ≠ t.target.place
  known : ∀ t ∈ w.tasks, ∃ x, t.supply = .known x
  manifests : Own w.manifests
  revisions : Own w.revisions
  compositions : Own w.compositions
  copies : Own w.copies

theorem Work.Orderly.of_reorders {w w' : Work} (h : w.Orderly) (re : w.Reorders w') : w'.Orderly where
  apart a ha b hb := h.apart a (re.directories.mem_iff.mp ha) b (re.directories.mem_iff.mp hb)
  below t ht := by
    obtain ⟨root, hr, strictly⟩ := h.below t (re.tasks.mem_iff.mp ht)
    exact ⟨root, re.directories.mem_iff.mpr hr, strictly⟩
  known t ht := h.known t (re.tasks.mem_iff.mp ht)
  manifests := h.manifests.perm re.manifests
  revisions := h.revisions.perm re.revisions
  compositions := h.compositions.perm re.compositions
  copies := h.copies.perm re.copies

/-! ## One list in another order -/

theorem isDirectory_of_writeAll {tasks : List Task}
    (h : tasks.foldlM (fun tree t => t.actAt tree) t = .ok t') (k : Key) :
    t'.isDirectory k = true ↔
      t.isDirectory k = true ∨ ∃ u ∈ tasks, k <+: u.target.place ∧ k ≠ u.target.place := by
  induction tasks generalizing t with
  | nil =>
    cases h
    simp
  | cons u rest ih =>
    rw [List.foldlM_cons] at h
    obtain ⟨between, first, h⟩ := Except.bind_eq_ok.mp h
    obtain ⟨text, -, rfl, vacant, free⟩ := actAt_eq_ok first
    rw [ih h, isDirectory_put_iff vacant free, or_assoc]
    simp only [List.mem_cons, exists_eq_or_imp]

/-- Files with places of their own can be written in any order. -/
theorem exists_writeAll_of_perm {tasks tasks' : List Task} (perm : tasks'.Perm tasks)
    (known : ∀ t ∈ tasks, ∃ x, t.supply = .known x) (own : Own tasks)
    (h : tasks.foldlM (fun tree t => t.actAt tree) t = .ok t') :
    ∃ u', tasks'.foldlM (fun tree t => t.actAt tree) t = .ok u' ∧ t'.Matches u' := by
  have known' : ∀ t ∈ tasks', ∃ x, t.supply = .known x := fun t ht => known t (perm.mem_iff.mp ht)
  obtain ⟨texts, clear⟩ := (writeAll_isOk_iff known).mp ⟨t', h⟩
  obtain ⟨u', h'⟩ := (writeAll_isOk_iff known').mpr ⟨fun t ht => texts t (perm.mem_iff.mp ht),
    clear.of_mem fun k hk => (perm.map _).mem_iff.mp hk⟩
  obtain ⟨written, others⟩ := file?_of_writeAll h own
  obtain ⟨written', others'⟩ := file?_of_writeAll h' (own.perm perm)
  refine ⟨u', h', fun k => get?_eq_of_node ?_ ?_⟩
  · by_cases target : ∃ t ∈ tasks, t.target.place = k
    · obtain ⟨t, ht, rfl⟩ := target
      obtain ⟨text, hx⟩ := texts t ht
      obtain ⟨_, _, supplied, here⟩ := written t ht
      obtain ⟨_, _, supplied', there⟩ := written' t (perm.mem_iff.mpr ht)
      rw [hx] at supplied supplied'
      cases supplied
      cases supplied'
      rw [here, there]
    · rw [others k fun t ht e => target ⟨t, ht, e⟩,
        others' k fun t ht e => target ⟨t, perm.mem_iff.mp ht, e⟩]
  · rw [Bool.eq_iff_iff, isDirectory_of_writeAll h, isDirectory_of_writeAll h']
    simp only [perm.mem_iff]

/-- Two ways to change a tree, of which the second leads from a matching tree to one where the first
leads. -/
def Leads (f g : FileTree String → Except BuildError (FileTree String)) : Prop :=
  ∀ t u t', t.Matches u → f t = .ok t' → ∃ u', g u = .ok u' ∧ t'.Matches u'

theorem Leads.bind {f f' g g' : FileTree String → Except BuildError (FileTree String)}
    (first : Leads f f') (second : Leads g g') :
    Leads (fun tree => f tree >>= g) fun tree => f' tree >>= g' := by
  intro t u t' same h
  obtain ⟨between, hf, hg⟩ := Except.bind_eq_ok.mp h
  obtain ⟨between', hf', same'⟩ := first t u between same hf
  obtain ⟨u', hg', same''⟩ := second between between' t' same' hg
  exact ⟨u', Except.bind_eq_ok.mpr ⟨between', hf', hg'⟩, same''⟩

theorem leads_writeAll {tasks tasks' : List Task} (perm : tasks'.Perm tasks)
    (known : ∀ t ∈ tasks, ∃ x, t.supply = .known x) (own : Own tasks) :
    Leads (fun tree => tasks.foldlM (fun tree t => t.actAt tree) tree)
      fun tree => tasks'.foldlM (fun tree t => t.actAt tree) tree := by
  intro t u t' same h
  obtain ⟨v, hv, same'⟩ := steered_tasks tasks t u t' same h
  obtain ⟨u', hu, same''⟩ := exists_writeAll_of_perm perm known own hv
  exact ⟨u', hu, same'.trans same''⟩

/-! ## All lists in another order -/

/-- Orderly work that can be done in one order can be done in any, and leaves the same. -/
theorem exists_actAt_of_reorders {w w' : Work} (orderly : w.Orderly) (re : w.Reorders w')
    (rooted : t.Rooted) (h : w.actAt t = .ok t') : ∃ u', w'.actAt t = .ok u' ∧ t'.Matches u' := by
  have part {tasks tasks' : List Task} (perm : tasks'.Perm tasks) (own : Own tasks)
      (sub : ∀ t ∈ tasks, t ∈ w.tasks) := leads_writeAll perm (fun t ht => orderly.known t (sub t ht)) own
  have files := (part re.manifests orderly.manifests fun t ht => by simp [Work.tasks, ht]).bind <|
    (part re.revisions orderly.revisions fun t ht => by simp [Work.tasks, ht]).bind <|
    (part re.compositions orderly.compositions fun t ht => by simp [Work.tasks, ht]).bind
      (part re.copies orderly.copies fun t ht => by simp [Work.tasks, ht])
  rw [w.actAt_eq] at h
  rw [w'.actAt_eq]
  obtain ⟨cleared, emptied, wrote⟩ := Except.bind_eq_ok.mp h
  have free := free_of_replaceAll orderly.apart rooted emptied
  have alike : Alike (w.directories.map (·.place)) t t := .refl fun r hr => by
    obtain ⟨root, listed, rfl⟩ := List.mem_map.mp hr
    exact free root listed _ (List.prefix_refl _)
  obtain ⟨cleared', emptied', same⟩ :=
    exists_replaceAll_of_alike orderly.apart re.directories rooted rooted alike emptied
  obtain ⟨u', wrote', same'⟩ := files cleared cleared' t' same wrote
  exact ⟨u', Except.bind_eq_ok.mpr ⟨cleared', emptied', wrote'⟩, same'⟩

/-! ## The work of independent changes -/

section
variable {mark : String} {artifacts : List Artifact} {changes : ChangeSet} {paths : PathMap}

/-- An artifact is found by any spelling of its path. -/
theorem exists_artifactAt {a : Artifact} {path : Path} (ha : a ∈ artifacts)
    (same : a.path.components = path.components) : ∃ b, artifactAt artifacts path = some b := by
  have found : a ∈ artifacts.filter fun a => a.path == path :=
    List.mem_filter.mpr ⟨ha, Path.beq_iff.mpr same⟩
  exact ⟨_, List.getLast?_eq_some_getLast (List.ne_nil_of_mem found)⟩

theorem orderly_of_independent (mark : String) (h : changes.Independent artifacts)
    (destined : changes.destinations = .ok paths) : (work mark artifacts changes paths).Orderly where
  apart := h.directories
  below t ht := h.below _ (target_mem_writes destined t ht)
  known t ht := by
    rcases mem_tasks_iff.mp ht with ⟨manifest, -, rfl⟩ | ⟨r, hr, rfl⟩ |
      ⟨r, path, map, target, hc, rfl⟩ | ⟨move, hm, rfl⟩
    · exact ⟨_, rfl⟩
    · exact ⟨_, rfl⟩
    · exact ⟨_, rfl⟩
    · obtain ⟨a, ha, same⟩ := h.listed move (List.mem_filter.mp hm).1
      obtain ⟨b, found⟩ := exists_artifactAt ha same
      exact ⟨_, by rw [copyTask, found]⟩
  manifests := by
    have own := (List.pairwise_append.mp h.writes).1
    rw [List.pairwise_map] at own
    exact List.pairwise_map.mpr own
  revisions := List.pairwise_map.mpr ((distinct_revisions h.distinct).imp_of_mem
    fun hr hq ne same => ne (h.source_eq destined (target_of_revisions hr) (target_of_revisions hq) same))
  compositions := List.pairwise_map.mpr ((distinct_companions h.distinct).imp_of_mem
    fun hc hd ne same => ne (h.source_eq destined (mem_companions_iff.mp hc).2.2.2
      (mem_companions_iff.mp hd).2.2.2 same))
  copies := by
    rw [copies_work]
    refine List.pairwise_map.mpr ((h.targets.filter _).imp fun ne => ?_)
    rwa [target_copyTask, target_copyTask]

end

end Apply
end Apportion
