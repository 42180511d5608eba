import Apportion.Proofs.Build.Effect
import Apportion.Proofs.Path.Tidy

/-!
How the moves are shared out. Edited files and the position maps that they bring along are made with
texts of their own, and the moves that are left are copies. Every path that is to be written is the
target of a task (`mem_targets_iff`); for tidy artifacts with paths of their own it is the target of
one task only (`targets_perm_writes`).
-/
namespace Apportion.Apply

variable {mark : String} {artifacts : List Artifact} {changes : ChangeSet} {paths : PathMap}

/-! ## Files with texts of their own -/

/-- The revision of an artifact, if there is one, is given by its move and its edits. -/
theorem revisions_eq : revisions mark artifacts changes paths =
    artifacts.filterMap fun a => (paths.get? a.path).bind fun target =>
      if a.isMap || (editsFor mark changes a).isEmpty then none
      else some ⟨a, target, editsFor mark changes a⟩ := by
  unfold revisions
  congr
  funext a
  cases paths.get? a.path <;> rfl

theorem mem_revisions_iff {r : Revision} : r ∈ revisions mark artifacts changes paths ↔
    r.artifact ∈ artifacts ∧ paths.get? r.artifact.path = some r.target ∧
      r.artifact.isMap = false ∧ editsFor mark changes r.artifact ≠ [] ∧
      r.edits = editsFor mark changes r.artifact := by
  simp only [revisions_eq, List.mem_filterMap, Option.bind_eq_some_iff,
    Option.ite_none_left_eq_some, Bool.or_eq_true, not_or, Bool.not_eq_true,
    List.isEmpty_eq_false_iff, Option.some.injEq]
  constructor
  · rintro ⟨a, ha, target, found, ⟨text, some⟩, rfl⟩
    exact ⟨ha, found, text, some, rfl⟩
  · rintro ⟨ha, found, text, some, edits⟩
    exact ⟨r.artifact, ha, r.target, found, ⟨text, some⟩, by rw [← edits]⟩

def companions (mark : String) (artifacts : List Artifact) (changes : ChangeSet) (paths : PathMap) :
    List (Revision × Path × Artifact × Path) :=
  (revisions mark artifacts changes paths).filterMap fun r =>
    (ownedMap artifacts paths r.artifact).map (r, ·)

theorem mem_companions_iff {r : Revision} {path target : Path} {map : Artifact} :
    (r, path, map, target) ∈ companions mark artifacts changes paths ↔
      r ∈ revisions mark artifacts changes paths ∧ r.artifact.map? = some path ∧
        artifactAt artifacts path = some map ∧ paths.get? path = some target := by
  unfold companions
  simp only [List.mem_filterMap, Option.map_eq_some_iff, Prod.mk.injEq, ownedMap,
    Option.bind_eq_bind, Option.bind_eq_some_iff, Option.pure_def, Option.some.injEq]
  constructor
  · rintro ⟨_, hr, _, ⟨q, owned, a, found, t, there, rfl⟩, rfl, e⟩
    cases e
    exact ⟨hr, owned, found, there⟩
  · rintro ⟨hr, owned, found, there⟩
    exact ⟨r, hr, _, ⟨path, owned, map, found, target, there, rfl⟩, rfl, rfl⟩

/-- The moves of edited files, and of the maps that come along. -/
def remade (mark : String) (artifacts : List Artifact) (changes : ChangeSet) (paths : PathMap) :
    List (Path × Path) :=
  (revisions mark artifacts changes paths).map (fun r => (r.artifact.path, r.target)) ++
    (companions mark artifacts changes paths).map fun c => (c.2.1, c.2.2.2)

def copied (mark : String) (artifacts : List Artifact) (changes : ChangeSet) (paths : PathMap) :
    List (Path × Path) :=
  changes.moves.filter fun move =>
    !((remade mark artifacts changes paths).map (·.1)).contains move.1

theorem get?_of_remade : ∀ e ∈ remade mark artifacts changes paths, paths.get? e.1 = some e.2 := by
  intro e he
  rcases List.mem_append.mp he with he | he
  · obtain ⟨r, hr, rfl⟩ := List.mem_map.mp he
    exact (mem_revisions_iff.mp hr).2.1
  · obtain ⟨⟨r, path, map, target⟩, hc, rfl⟩ := List.mem_map.mp he
    exact (mem_companions_iff.mp hc).2.2.2

theorem contains_sources_iff {made : List (Path × Path)} {path : Path} :
    (made.map (·.1)).contains path = true ↔ ∃ e ∈ made, e.1.components = path.components := by
  rw [List.contains_iff_exists_mem_beq]
  constructor
  · rintro ⟨_, h, same⟩
    obtain ⟨e, he, rfl⟩ := List.mem_map.mp h
    exact ⟨e, he, (Path.beq_iff.mp same).symm⟩
  · rintro ⟨e, he, same⟩
    exact ⟨e.1, List.mem_map_of_mem he, Path.beq_iff.mpr same.symm⟩

/-! ## Tasks -/

/-- The sources planned for a file are found by any spelling of its path. -/
theorem revisedMap_congr {p q : Path} (h : p.components = q.components) (text : String) :
    revisedMap changes p text = revisedMap changes q text := by
  have same : ∀ path : Path, (path == p) = (path == q) := fun path => by
    rw [Bool.eq_iff_iff, Path.beq_iff, Path.beq_iff, h]
  simp only [revisedMap, ChangeSet.sourcesOf, same]

theorem copies_work : (work mark artifacts changes paths).copies =
    (copied mark artifacts changes paths).map fun move =>
      copyTask artifacts changes move.1 move.2 := by
  have done : (revisions mark artifacts changes paths).map (·.artifact.path) ++
      (companions mark artifacts changes paths).map (·.2.1) =
      (remade mark artifacts changes paths).map (·.1) := by
    rw [remade, List.map_append, List.map_map, List.map_map]
    rfl
  rw [copied, ← done]
  rfl

/-- The tasks that make moves, after the manifests. -/
def Work.files (w : Work) : List Task := w.revisions ++ w.compositions ++ w.copies

theorem Work.tasks_eq (w : Work) : w.tasks = w.manifests ++ w.files := by
  simp only [tasks, files, List.append_assoc]

theorem mem_files_iff {t : Task} : t ∈ (work mark artifacts changes paths).files ↔
    (∃ r ∈ revisions mark artifacts changes paths, t = r.task) ∨
    (∃ r path map target, (r, path, map, target) ∈ companions mark artifacts changes paths ∧
      t = compositionTask changes r path map target) ∨
    ∃ move ∈ copied mark artifacts changes paths, t = copyTask artifacts changes move.1 move.2 := by
  have maps : (work mark artifacts changes paths).compositions =
      (companions mark artifacts changes paths).map fun c =>
        compositionTask changes c.1 c.2.1 c.2.2.1 c.2.2.2 := rfl
  rw [Work.files, copies_work, maps]
  simp only [work, List.mem_append, List.mem_map, or_assoc, Prod.exists, eq_comm (b := t)]

theorem mem_tasks_iff {t : Task} : t ∈ (work mark artifacts changes paths).tasks ↔
    (∃ manifest ∈ changes.manifests, t = ⟨manifest.1, .known (.ok manifest.2)⟩) ∨
    (∃ r ∈ revisions mark artifacts changes paths, t = r.task) ∨
    (∃ r path map target, (r, path, map, target) ∈ companions mark artifacts changes paths ∧
      t = compositionTask changes r path map target) ∨
    ∃ move ∈ copied mark artifacts changes paths, t = copyTask artifacts changes move.1 move.2 := by
  rw [Work.tasks_eq, List.mem_append, mem_files_iff]
  simp only [work, List.mem_map, eq_comm (b := t)]

theorem Revision.at_task_eq_ok {r : Revision} {tree : FileTree String} {text : String} :
    r.task.supply.at tree = .ok text ↔ ∃ buffer,
      (EditBuffer.ofText r.artifact.content).overwriteAll r.edits = .ok buffer ∧
        buffer.render = text := by
  simp only [Revision.task, Supply.at, Revision.buffer, Except.map_eq_ok, Except.mapError_eq_ok]

/-- The name that an edited text has in its map. -/
def Revision.name (r : Revision) : String := r.target.fileName.getD ""

/-- A composed map is there if the edits are accepted and the maps can be joined. -/
theorem at_compositionTask_eq_ok {r : Revision} {path target : Path} {map : Artifact}
    {tree : FileTree String} {text : String} :
    (compositionTask changes r path map target).supply.at tree = .ok text ↔ ∃ buffer outer,
      (EditBuffer.ofText r.artifact.content).overwriteAll r.edits = .ok buffer ∧
        composedMap changes map path (buffer.positionMap r.name r.name) = .ok outer ∧
        outer.render = text := by
  simp only [compositionTask, Supply.at, Except.bind_eq_ok, Revision.buffer, Except.mapError_eq_ok,
    Except.map_eq_ok, Revision.name]
  constructor
  · rintro ⟨buffer, accepted, outer, joined, rfl⟩
    exact ⟨buffer, outer, accepted, joined, rfl⟩
  · rintro ⟨buffer, outer, accepted, joined, rfl⟩
    exact ⟨buffer, accepted, outer, joined, rfl⟩

/-- A map gets the sources planned for it, or stays as it is if there are none. -/
theorem revisedMap_eq_ok {path : Path} {text : String} {out : PositionMap} :
    revisedMap changes path text = .ok out ↔ ∃ map, PositionMap.parse text = .ok map ∧
      ((changes.sourcesOf path = none ∧ out = map) ∨
        ∃ sources, changes.sourcesOf path = some sources ∧ map.withSources sources = .ok out) := by
  rw [revisedMap, Except.bind_eq_ok]
  refine exists_congr fun map => and_congr_right fun _ => ?_
  cases planned : changes.sourcesOf path with
  | none => simp [pure, Except.pure, eq_comm]
  | some sources => simp

/-- A text that is not edited stays as it is, unless it is a map with planned sources. -/
theorem revisedText_eq_ok {source : Path} {text out : String} :
    revisedText changes source text = .ok out ↔
      (changes.sourcesOf source = none ∧ out = text) ∨
      ∃ sources map revised, changes.sourcesOf source = some sources ∧
        PositionMap.parse text = .ok map ∧ map.withSources sources = .ok revised ∧
        revised.render = out := by
  unfold revisedText
  cases planned : changes.sourcesOf source with
  | none => simp [eq_comm]
  | some sources =>
    simp only [Option.isSome_some, ↓reduceIte, Except.mapError_eq_ok, Except.map_eq_ok,
      revisedMap_eq_ok, planned, reduceCtorEq, false_and, false_or, Option.some.injEq]
    constructor
    · rintro ⟨revised, ⟨map, parsed, _, rfl, made⟩, rfl⟩
      exact ⟨sources, map, revised, rfl, parsed, made, rfl⟩
    · rintro ⟨_, map, revised, rfl, parsed, made, rfl⟩
      exact ⟨revised, ⟨map, parsed, _, rfl, made⟩, rfl⟩

/-- The composed map is named as the map that came with the text, if that has a name. -/
theorem composedMap_eq_ok {map : Artifact} {path : Path} {edited out : PositionMap} :
    composedMap changes map path edited = .ok out ↔ ∃ inner composed,
      revisedMap changes path map.content = .ok inner ∧
        PositionMap.compose edited inner = .ok composed ∧
        out = { composed with file := inner.file <|> edited.file } := by
  rw [composedMap, Except.bind_eq_ok]
  constructor
  · rintro ⟨inner, revised, h⟩
    obtain ⟨composed, joined, h⟩ := Except.bind_eq_ok.mp h
    cases h
    exact ⟨inner, composed, revised, joined, rfl⟩
  · rintro ⟨inner, composed, revised, joined, rfl⟩
    exact ⟨inner, revised, Except.bind_eq_ok.mpr ⟨composed, joined, rfl⟩⟩

/-! ## One task for each path -/

theorem targets_work : (work mark artifacts changes paths).tasks.map (·.target) =
    changes.manifests.map (·.1) ++ ((remade mark artifacts changes paths).map (·.2) ++
      (copied mark artifacts changes paths).map (·.2)) := by
  have copies : (work mark artifacts changes paths).copies.map (·.target) =
      (copied mark artifacts changes paths).map (·.2) := by
    rw [copies_work, List.map_map]
    exact List.map_congr_left fun move _ => target_copyTask artifacts changes move.1 move.2
  simp only [Work.tasks, List.map_append, copies, remade, List.append_assoc]
  simp only [work, List.map_map]
  rfl

theorem mem_targets_iff (destined : changes.destinations = .ok paths) {path : Path} :
    path ∈ (work mark artifacts changes paths).tasks.map (·.target) ↔ path ∈ changes.writes := by
  constructor
  · intro h
    obtain ⟨t, ht, rfl⟩ := List.mem_map.mp h
    exact target_mem_writes destined t ht
  · intro h
    rw [targets_work]
    rcases List.mem_append.mp h with h | h
    · exact List.mem_append_left _ h
    · refine List.mem_append_right _ (List.mem_append.mpr ?_)
      obtain ⟨move, hm, rfl⟩ := List.mem_map.mp h
      by_cases again : ((remade mark artifacts changes paths).map (·.1)).contains move.1 = true
      · obtain ⟨e, he, same⟩ := contains_sources_iff.mp again
        have one : paths.get? e.1 = some move.2 :=
          (PathMap.get?_eq_some_iff destined).mpr ⟨move.1, hm, same.symm⟩
        rw [get?_of_remade e he] at one
        exact .inl (Option.some.inj one ▸ List.mem_map_of_mem he)
      · refine .inr (List.mem_map_of_mem (List.mem_filter.mpr ⟨hm, ?_⟩))
        simpa using again

theorem exists_file_of_move (mark : String) (destined : changes.destinations = .ok paths) {move : Path × Path}
    (moved : move ∈ changes.moves) :
    ∃ t ∈ (work mark artifacts changes paths).files, t.target = move.2 := by
  by_cases again : ((remade mark artifacts changes paths).map (·.1)).contains move.1 = true
  · obtain ⟨e, he, same⟩ := contains_sources_iff.mp again
    have leads : e.2 = move.2 := by
      have led := (PathMap.get?_eq_some_iff destined).mpr ⟨move.1, moved, same.symm⟩
      rw [get?_of_remade e he] at led
      exact Option.some.inj led
    rw [← leads]
    rcases List.mem_append.mp he with he | he
    · obtain ⟨r, hr, rfl⟩ := List.mem_map.mp he
      exact ⟨r.task, mem_files_iff.mpr (.inl ⟨r, hr, rfl⟩), rfl⟩
    · obtain ⟨⟨r, path, map, target⟩, hc, rfl⟩ := List.mem_map.mp he
      exact ⟨_, mem_files_iff.mpr (.inr (.inl ⟨r, path, map, target, hc, rfl⟩)), rfl⟩
  · have left : move ∈ copied mark artifacts changes paths :=
      List.mem_filter.mpr ⟨moved, by simpa using again⟩
    exact ⟨_, mem_files_iff.mpr (.inr (.inr ⟨move, left, rfl⟩)),
      target_copyTask artifacts changes move.1 move.2⟩

section
variable (distinct : artifacts.Pairwise fun a b => a.path.components ≠ b.path.components)
include distinct

theorem distinct_revisions : (revisions mark artifacts changes paths).Pairwise fun r q =>
    r.artifact.path.components ≠ q.artifact.path.components := by
  have own : ∀ (a : Artifact) (r : Revision), ((paths.get? a.path).bind fun target =>
      if a.isMap || (editsFor mark changes a).isEmpty then none
      else some ⟨a, target, editsFor mark changes a⟩) = some r → r.artifact = a := by
    intro a r h
    obtain ⟨target, -, h⟩ := Option.bind_eq_some_iff.mp h
    simp only [Option.ite_none_left_eq_some] at h
    cases h.2
    rfl
  rw [revisions_eq]
  refine distinct.filterMap _ fun a b ne r hr q hq => ?_
  rwa [own a r hr, own b q hq]

/-- No two files bring the same map along. -/
theorem distinct_companions : (companions mark artifacts changes paths).Pairwise fun c d =>
    c.2.1.components ≠ d.2.1.components := by
  have owned : ∀ {r : Revision} {c : Revision × Path × Artifact × Path},
      (ownedMap artifacts paths r.artifact).map (r, ·) = some c → r.artifact.map? = some c.2.1 := by
    intro r c h
    obtain ⟨e, found, rfl⟩ := Option.map_eq_some_iff.mp h
    simp only [ownedMap, Option.bind_eq_bind, Option.bind_eq_some_iff, Option.pure_def,
      Option.some.injEq] at found
    obtain ⟨path, owned, _, -, _, -, rfl⟩ := found
    exact owned
  refine List.pairwise_filterMap.mpr ((distinct_revisions distinct).imp
    fun {r q} ne c hc d hd same => ne (Path.components_of_mapPath ?_))
  rwa [← (Artifact.of_map? (owned hc)).1, ← (Artifact.of_map? (owned hd)).1]

variable (tidy : ∀ a ∈ artifacts, a.path.Tidy)
include tidy

theorem distinct_remade :
    (remade mark artifacts changes paths).Pairwise fun a b => a.1.components ≠ b.1.components := by
  refine List.pairwise_append.mpr ⟨List.pairwise_map.mpr (distinct_revisions distinct),
    List.pairwise_map.mpr (distinct_companions distinct), ?_⟩
  -- what is edited is no position map, what comes along is one
  rintro _ edited _ along same
  obtain ⟨r, hr, rfl⟩ := List.mem_map.mp edited
  obtain ⟨⟨q, path, map, target⟩, hc, rfl⟩ := List.mem_map.mp along
  obtain ⟨hq, owned, -, -⟩ := mem_companions_iff.mp hc
  obtain ⟨beside, s, named⟩ := Artifact.of_map? owned
  have text := (mem_revisions_iff.mp hr).2.2.1
  have kind : r.artifact.kind = .positionMap := by
    rw [Artifact.kind, Path.kind_congr same]
    exact beside ▸ Path.kind_mapPath (tidy _ (mem_revisions_iff.mp hq).1) named
  rw [Artifact.isMap, kind] at text
  cases text

/-- Every move is made by one task: its file is edited, comes along with one that is, or is copied. -/
theorem moves_perm (destined : changes.destinations = .ok paths) :
    ((remade mark artifacts changes paths).map (·.2) ++
      (copied mark artifacts changes paths).map (·.2)).Perm (changes.moves.map (·.2)) := by
  have apart := (PathMap.of_ofPairs destined).1
  let again (move : Path × Path) : Bool :=
    ((remade mark artifacts changes paths).map (·.1)).contains move.1
  have shared : ((remade mark artifacts changes paths).map fun e => (e.1.components, e.2)).Perm
      ((changes.moves.filter again).map fun e => (e.1.components, e.2)) := by
    refine (List.perm_ext_iff_of_nodup ?_ ?_).mpr fun e => ?_
    · refine List.pairwise_map.mpr ((distinct_remade distinct tidy).imp fun ne same => ne ?_)
      exact congrArg Prod.fst same
    · refine List.pairwise_map.mpr ((apart.filter again).imp fun ne same => ne.1 ?_)
      exact congrArg Prod.fst same
    · simp only [List.mem_map, List.mem_filter]
      constructor
      · rintro ⟨made, hm, rfl⟩
        obtain ⟨source, moved, same⟩ := (PathMap.get?_eq_some_iff destined).mp (get?_of_remade made hm)
        exact ⟨(source, made.2), ⟨moved, contains_sources_iff.mpr ⟨made, hm, same.symm⟩⟩,
          by rw [same]⟩
      · rintro ⟨move, ⟨moved, listed⟩, rfl⟩
        obtain ⟨made, hm, same⟩ := contains_sources_iff.mp listed
        have target := (PathMap.get?_eq_some_iff destined).mpr ⟨move.1, moved, same.symm⟩
        rw [get?_of_remade made hm] at target
        exact ⟨made, hm, by rw [same, Option.some.inj target]⟩
  have second := shared.map Prod.snd
  rw [List.map_map, List.map_map] at second
  have whole := (List.filter_append_perm again changes.moves).map (·.2)
  rw [List.map_append] at whole
  exact (second.append_right _).trans whole

/-- What is written is the target of one task each. -/
theorem targets_perm_writes (destined : changes.destinations = .ok paths) :
    ((work mark artifacts changes paths).tasks.map (·.target)).Perm changes.writes := by
  rw [targets_work]
  exact List.Perm.append_left _ (moves_perm distinct tidy destined)

theorem summary_work (destined : changes.destinations = .ok paths) :
    (work mark artifacts changes paths).summary.revised +
      (work mark artifacts changes paths).summary.composed +
      (work mark artifacts changes paths).summary.copied = changes.moves.length := by
  have count := (@moves_perm mark _ _ _ distinct tidy destined).length_eq
  simp only [List.length_append, List.length_map, List.map_append, List.map_map, remade, companions,
    copied] at count
  simp only [Work.summary, work, List.length_map]
  exact count

end

end Apportion.Apply
