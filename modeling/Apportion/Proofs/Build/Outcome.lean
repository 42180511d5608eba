import Apportion.Proofs.Build.Work
import Apportion.Proofs.Build.Written
import Apportion.Proofs.Edit.Buffer
import Apportion.Proofs.Plan.Lookup

/-!
What a plan leaves when it has been carried out. Below its root each package has its manifest and its
artifacts, and nothing else; each artifact has the text that was meant for it (`Holds`), and files
outside the packages are as they were (`delivered_of_apply`).
-/
namespace Apportion
open Apply

theorem spliced_nil (text : String) : Spliced text [] text :=
  ⟨[], [.kept text.toList], .refl _, .rest 0 text.toList, by simp [Stretch.rendered]⟩

namespace Planner

/-! ## Texts -/

/-- The edits that are to be made in an artifact: those that are planned for it, and at every reference
to a builtin that has no mark its specifier behind the mark. -/
def dueEdits (mark : String) (changes : ChangeSet) (a : Artifact) : List TextEdit :=
  changes.editsOf a.path ++
    (a.references.filter fun r => r.builtin ∧ ¬ mark.toList <+: r.specifier.toList).map
      fun r => ⟨r.range, mark ++ r.specifier⟩

theorem editsFor_eq (mark : String) (changes : ChangeSet) (a : Artifact) :
    editsFor mark changes a = dueEdits mark changes a := by
  have one : ∀ r : Reference, markEdit mark r =
      if r.builtin ∧ ¬ mark.toList <+: r.specifier.toList then some ⟨r.range, mark ++ r.specifier⟩
      else none := fun r => by
    simp [markEdit, Builtin.isMarked, ← List.isPrefixOf_iff_prefix]
  rw [editsFor, dueEdits, ← List.filterMap_eq_map, List.filterMap_filter]
  simp only [one, Function.comp_apply, decide_eq_true_eq]

/-- A packaged artifact that is edited on its way to `target`, and whose position map is `map`. -/
structure Brings (p : Planner) (packages : List Package) (mark : String) (changes : ChangeSet)
    (owner map : Artifact) (target : Path) : Prop where
  packaged : ∃ package ∈ packages, owner ∈ package.artifacts ∧ p.finalPath package owner = target
  text : owner.isMap = false
  edited : dueEdits mark changes owner ≠ []
  owned : ∃ path, owner.map? = some path ∧ path.components = map.path.components

/-- The map that an artifact holds, with the sources planned for it if there are any. -/
inductive GoesOnAs (changes : ChangeSet) (a : Artifact) : PositionMap → Prop
  | held {map : PositionMap} (planned : changes.sourcesOf a.path = none)
      (parsed : PositionMap.parse a.content = .ok map) : GoesOnAs changes a map
  | revised {sources : List (Option String)} {map revised : PositionMap}
      (planned : changes.sourcesOf a.path = some sources)
      (parsed : PositionMap.parse a.content = .ok map)
      (made : map.withSources sources = .ok revised) : GoesOnAs changes a revised

theorem goesOnAs_of_revisedMap {changes : ChangeSet} {a : Artifact} {map : PositionMap}
    (h : revisedMap changes a.path a.content = .ok map) : GoesOnAs changes a map := by
  obtain ⟨held, parsed, ⟨none, rfl⟩ | ⟨sources, planned, made⟩⟩ := revisedMap_eq_ok.mp h
  · exact .held none parsed
  · exact .revised planned parsed made

/-- The text that an artifact goes on with: all its edits are made where they stand; a position map is
joined to the edits of the file that it belongs to, or else gets the sources planned for it, or stays as
it is. -/
inductive Holds (p : Planner) (packages : List Package) (mark : String) (changes : ChangeSet)
    (a : Artifact) : String → Prop
  | edited {text : String} (kind : a.isMap = false)
      (made : Spliced a.content (dueEdits mark changes a) text) : Holds p packages mark changes a text
  | composed {owner : Artifact} {target : Path} {name : String} {buffer : EditBuffer}
      {inner composed : PositionMap} (kind : a.isMap = true)
      (brings : Brings p packages mark changes owner a target)
      (named : target.fileName.getD "" = name)
      (accepted : (EditBuffer.ofText owner.content).overwriteAll (dueEdits mark changes owner) =
        .ok buffer)
      (goes : GoesOnAs changes a inner)
      (joined : PositionMap.compose (buffer.positionMap name name) inner = .ok composed) :
      Holds p packages mark changes a { composed with file := inner.file <|> some name }.render
  | revised {sources : List (Option String)} {map revised : PositionMap} (kind : a.isMap = true)
      (alone : ∀ owner target, ¬ Brings p packages mark changes owner a target)
      (planned : changes.sourcesOf a.path = some sources)
      (parsed : PositionMap.parse a.content = .ok map) (made : map.withSources sources = .ok revised) :
      Holds p packages mark changes a revised.render
  | copied (kind : a.isMap = true)
      (alone : ∀ owner target, ¬ Brings p packages mark changes owner a target)
      (planned : changes.sourcesOf a.path = none) : Holds p packages mark changes a a.content

section
variable {p : Planner} {extension mark : String} {modules : List EmittedModule}
  {artifacts : List Artifact} {changes : ChangeSet} {paths : PathMap} {package : Package} {a : Artifact}
  (planned : p.plan (Partition.packages ⟨p.emitRoot, extension⟩ modules artifacts) = .ok changes)
include planned

/-- A packaged artifact that is not edited, and comes along with none, is copied. -/
theorem copy_mem_tasks (hp : package ∈ Partition.packages ⟨p.emitRoot, extension⟩ modules artifacts)
    (ha : a ∈ package.artifacts)
    (other : ¬ ∃ e ∈ remade mark artifacts changes paths, e.1.components = a.path.components) :
    ⟨p.finalPath package a, .known (revisedText changes a.path a.content)⟩ ∈
      (work mark artifacts changes paths).tasks := by
  have moved : (a.path, p.finalPath package a) ∈ changes.moves :=
    (mem_moves_iff planned).mpr ⟨package, hp, a, ha, rfl, rfl⟩
  have left : (a.path, p.finalPath package a) ∈ copied mark artifacts changes paths := by
    refine List.mem_filter.mpr ⟨moved, ?_⟩
    rw [Bool.not_eq_true', Bool.eq_false_iff]
    exact fun again => other (contains_sources_iff.mp again)
  refine mem_tasks_iff.mpr (.inr (.inr (.inr ⟨_, left, ?_⟩)))
  rw [copyTask, artifactAt_of_plan planned (List.mem_flatMap.mpr ⟨package, hp, ha⟩) rfl]

variable (destined : changes.destinations = .ok paths) (tidy : ∀ a ∈ artifacts, a.path.Tidy)
  (distinct : artifacts.Pairwise fun a b => a.path.components ≠ b.path.components)
include destined tidy distinct

/-- A packaged artifact that does not go on with its own text is edited, or comes along with one that
is. -/
theorem of_remade (hp : package ∈ Partition.packages ⟨p.emitRoot, extension⟩ modules artifacts)
    (ha : a ∈ package.artifacts)
    (h : ∃ e ∈ remade mark artifacts changes paths, e.1.components = a.path.components) :
    (a.isMap = false ∧ dueEdits mark changes a ≠ []) ∨
      (a.isMap = true ∧ ∃ owner target, Brings p
        (Partition.packages ⟨p.emitRoot, extension⟩ modules artifacts) mark changes owner a target) := by
  have one : ∀ {b c : Artifact}, b ∈ artifacts → c ∈ artifacts →
      b.path.components = c.path.components → b = c := fun hb hc same =>
    List.inj_on_of_nodup_map (f := fun a : Artifact => a.path.components)
      (List.pairwise_map.mpr distinct) hb hc same
  obtain ⟨e, he, same⟩ := h
  rcases List.mem_append.mp he with he | he
  · obtain ⟨r, hr, rfl⟩ := List.mem_map.mp he
    obtain ⟨mem, -, text, some, -⟩ := mem_revisions_iff.mp hr
    obtain rfl := one mem (Partition.mem_of_mem_artifacts hp ha) same
    exact .inl ⟨text, editsFor_eq mark changes _ ▸ some⟩
  · obtain ⟨⟨r, path, map, target⟩, hc, rfl⟩ := List.mem_map.mp he
    obtain ⟨hr, owned, -, -⟩ := mem_companions_iff.mp hc
    obtain ⟨mem, moved, text, some, -⟩ := mem_revisions_iff.mp hr
    obtain ⟨beside, s, named⟩ := Artifact.of_map? owned
    have kind : a.kind = .positionMap := by
      rw [Artifact.kind, ← Path.kind_congr same]
      exact beside ▸ Path.kind_mapPath (tidy _ mem) named
    obtain ⟨other, ho, b, hb, same', final⟩ := (get?_destinations planned destined).mp moved
    obtain rfl := one (Partition.mem_of_mem_artifacts ho hb) mem same'
    exact .inr ⟨by rw [Artifact.isMap, kind]; rfl, r.artifact, r.target,
      ⟨⟨other, ho, hb, final⟩, text, editsFor_eq mark changes _ ▸ some, ⟨path, owned, same⟩⟩⟩

theorem exists_task_of_text
    (hp : package ∈ Partition.packages ⟨p.emitRoot, extension⟩ modules artifacts)
    (ha : a ∈ package.artifacts) (kind : a.isMap = false) :
    ∃ t ∈ (work mark artifacts changes paths).tasks, t.target = p.finalPath package a ∧
      ∀ before text, t.supply.at before = .ok text →
        Spliced a.content (dueEdits mark changes a) text := by
  by_cases edits : dueEdits mark changes a = []
  · have other : ¬ ∃ e ∈ remade mark artifacts changes paths,
        e.1.components = a.path.components := by
      intro again
      rcases of_remade planned destined tidy distinct hp ha again with ⟨-, some⟩ | ⟨map, -⟩
      · exact some edits
      · rw [kind] at map
        cases map
    refine ⟨_, copy_mem_tasks planned hp ha other, rfl, fun before text ok => ?_⟩
    rcases revisedText_eq_ok.mp ok with ⟨-, rfl⟩ | ⟨sources, _, _, listed, -⟩
    · rw [edits]
      exact spliced_nil _
    · rw [sourcesOf_of_text planned (List.mem_flatMap.mpr ⟨package, hp, ha⟩) kind] at listed
      cases listed
  · let r : Revision := ⟨a, p.finalPath package a, dueEdits mark changes a⟩
    have revised : r ∈ Apply.revisions mark artifacts changes paths := by
      rw [mem_revisions_iff, editsFor_eq]
      exact ⟨Partition.mem_of_mem_artifacts hp ha, (get?_destinations planned destined).mpr
        ⟨package, hp, a, ha, rfl, rfl⟩, kind, edits, rfl⟩
    refine ⟨r.task, mem_tasks_iff.mpr (.inr (.inl ⟨r, revised, rfl⟩)), rfl, fun before text ok => ?_⟩
    obtain ⟨buffer, accepted, rfl⟩ := Revision.at_task_eq_ok.mp ok
    exact EditBuffer.spliced_render accepted

theorem exists_task_of_map
    (hp : package ∈ Partition.packages ⟨p.emitRoot, extension⟩ modules artifacts)
    (ha : a ∈ package.artifacts) (kind : a.isMap = true) :
    ∃ t ∈ (work mark artifacts changes paths).tasks, t.target = p.finalPath package a ∧
      ∀ before text, t.supply.at before = .ok text →
        Holds p (Partition.packages ⟨p.emitRoot, extension⟩ modules artifacts) mark changes a text := by
  by_cases brought : ∃ owner target, Brings p
      (Partition.packages ⟨p.emitRoot, extension⟩ modules artifacts) mark changes owner a target
  · obtain ⟨owner, target, brings⟩ := brought
    obtain ⟨other, ho, hb, final⟩ := brings.packaged
    obtain ⟨path, owned, same⟩ := brings.owned
    let r : Revision := ⟨owner, target, dueEdits mark changes owner⟩
    have revised : r ∈ Apply.revisions mark artifacts changes paths := by
      rw [mem_revisions_iff, editsFor_eq]
      exact ⟨Partition.mem_of_mem_artifacts ho hb, (get?_destinations planned destined).mpr
        ⟨other, ho, owner, hb, rfl, final⟩, brings.text, brings.edited, rfl⟩
    have along : (r, path, a, p.finalPath package a) ∈ companions mark artifacts changes paths :=
      mem_companions_iff.mpr ⟨revised, owned,
        artifactAt_of_plan planned (List.mem_flatMap.mpr ⟨package, hp, ha⟩) same.symm,
        (get?_destinations planned destined).mpr ⟨package, hp, a, ha, same.symm, rfl⟩⟩
    refine ⟨compositionTask changes r path a (p.finalPath package a),
      mem_tasks_iff.mpr (.inr (.inr (.inl ⟨_, _, _, _, along, rfl⟩))), rfl, fun before text ok => ?_⟩
    obtain ⟨buffer, outer, accepted, made, rfl⟩ := at_compositionTask_eq_ok.mp ok
    obtain ⟨inner, composed, revised, joined, rfl⟩ := composedMap_eq_ok.mp made
    rw [revisedMap_congr same] at revised
    exact .composed kind brings rfl accepted (goesOnAs_of_revisedMap revised) joined
  · have alone : ∀ owner target, ¬ Brings p
        (Partition.packages ⟨p.emitRoot, extension⟩ modules artifacts) mark changes owner a target :=
      fun owner target brings => brought ⟨owner, target, brings⟩
    have other : ¬ ∃ e ∈ remade mark artifacts changes paths,
        e.1.components = a.path.components := by
      intro again
      rcases of_remade planned destined tidy distinct hp ha again with ⟨text, -⟩ | ⟨-, brings⟩
      · rw [kind] at text
        cases text
      · exact brought brings
    refine ⟨_, copy_mem_tasks planned hp ha other, rfl, fun before text ok => ?_⟩
    rcases revisedText_eq_ok.mp ok with ⟨none, rfl⟩ | ⟨sources, map, revised, listed, parsed, made, rfl⟩
    · exact .copied kind alone none
    · exact .revised kind alone listed parsed made

/-! ## The tree -/

/-- What is written has places of its own, if no artifact goes to the path of a manifest. -/
theorem distinct_places_of_tasks (plain : IsName p.manifestName)
    (names : ∀ package ∈ Partition.packages ⟨p.emitRoot, extension⟩ modules artifacts,
      IsName package.name)
    (member : ∀ package ∈ Partition.packages ⟨p.emitRoot, extension⟩ modules artifacts,
      ∀ a ∈ package.artifacts, p.Member package a)
    (clear : ∀ move ∈ changes.moves, ∀ manifest ∈ changes.manifests,
      (move.2 == manifest.1) = false) :
    (work mark artifacts changes paths).tasks.Pairwise fun t u =>
      t.target.place ≠ u.target.place := by
  have perm := @targets_perm_writes mark artifacts changes paths distinct tidy destined
  have places := distinct_places_of_writes planned plain names member clear
  have spread := (perm.pairwise_iff (R := fun a b => a.place ≠ b.place) fun h => Ne.symm h).mpr places
  exact (List.pairwise_map (f := fun t : Task => t.target)).mp spread

theorem mem_targets_of_plan (path : Path) :
    path ∈ (work mark artifacts changes paths).tasks.map (·.target) ↔
      path ∈ p.targets (Partition.packages ⟨p.emitRoot, extension⟩ modules artifacts) :=
  ((targets_perm_writes distinct tidy destined).trans (writes_perm planned)).mem_iff

variable {before after : FileTree String} (left : (work mark artifacts changes paths).Leaves before after)
include left

theorem file?_of_artifact
    (hp : package ∈ Partition.packages ⟨p.emitRoot, extension⟩ modules artifacts)
    (ha : a ∈ package.artifacts) : ∃ text, after.file? (p.finalPath package a).place = some text ∧
      Holds p (Partition.packages ⟨p.emitRoot, extension⟩ modules artifacts) mark changes a text := by
  cases kind : a.isMap with
  | false =>
    obtain ⟨t, ht, final, made⟩ := exists_task_of_text planned destined tidy distinct hp ha kind
    obtain ⟨before, text, supplied, written⟩ := left.texts t ht
    exact ⟨text, final ▸ written, .edited kind (made before text supplied)⟩
  | true =>
    obtain ⟨t, ht, final, holds⟩ := exists_task_of_map planned destined tidy distinct hp ha kind
    obtain ⟨before, text, supplied, written⟩ := left.texts t ht
    exact ⟨text, final ▸ written, holds before text supplied⟩

omit destined tidy distinct in
theorem file?_of_manifest
    (hp : package ∈ Partition.packages ⟨p.emitRoot, extension⟩ modules artifacts) :
    after.file? ((p.packageRoot package).join ⟨p.manifestName⟩).place =
      some package.manifest.render := by
  have listed : ((p.packageRoot package).join ⟨p.manifestName⟩, package.manifest.render) ∈
      changes.manifests := (plan_eq_ok planned).2.2.1 ▸ List.mem_map_of_mem hp
  obtain ⟨before, text, supplied, written⟩ := left.texts _ (mem_tasks_iff.mpr (.inl ⟨_, listed, rfl⟩))
  cases supplied
  exact written

variable (plain : IsName p.manifestName)
  (member : ∀ package ∈ Partition.packages ⟨p.emitRoot, extension⟩ modules artifacts,
    ∀ a ∈ package.artifacts, p.Member package a)
include plain member

/-- No file stands at a package's root or below that was not written. -/
theorem isFile_iff_of_below
    (names : ∀ package ∈ Partition.packages ⟨p.emitRoot, extension⟩ modules artifacts,
      IsName package.name)
    (hp : package ∈ Partition.packages ⟨p.emitRoot, extension⟩ modules artifacts) {k : Key}
    (below : (p.packageRoot package).place <+: k) :
    after.isFile k = true ↔ k = ((p.packageRoot package).join ⟨p.manifestName⟩).place ∨
      ∃ a ∈ package.artifacts, k = (p.finalPath package a).place := by
  have target := @mem_targets_of_plan p extension mark modules artifacts changes paths planned
    destined tidy distinct
  have root : p.packageRoot package ∈ (work mark artifacts changes paths).directories := by
    rw [show (work mark artifacts changes paths).directories = _ from (plan_eq_ok planned).2.1]
    exact List.mem_map_of_mem hp
  rw [← place_of_targets_iff planned plain names member hp below]
  constructor
  · intro file
    refine Classical.byContradiction fun none => ?_
    have gone := left.others k fun t ht here =>
      none ⟨t.target, (target _).mp (List.mem_map_of_mem ht), here⟩
    rw [if_pos ⟨_, root, below⟩] at gone
    simp [FileTree.isFile, gone] at file
  · rintro ⟨path, hpath, rfl⟩
    obtain ⟨t, ht, rfl⟩ := List.mem_map.mp ((target path).mpr hpath)
    obtain ⟨-, text, -, written⟩ := left.texts t ht
    simp [FileTree.isFile, written]

theorem file?_of_outside {k : Key}
    (outside : ∀ package ∈ Partition.packages ⟨p.emitRoot, extension⟩ modules artifacts,
      ¬ (p.packageRoot package).place <+: k) : after.file? k = before.file? k := by
  have apart : ∀ root ∈ changes.directories, ¬ root.place <+: k := by
    intro root hr
    rw [(plan_eq_ok planned).2.1] at hr
    obtain ⟨package, hp, rfl⟩ := List.mem_map.mp hr
    exact outside package hp
  have elsewhere : ∀ t ∈ (work mark artifacts changes paths).tasks, t.target.place ≠ k := by
    rintro t ht rfl
    obtain ⟨root, hr, below⟩ := (contained_of_plan planned plain member).below _
      ((targets_perm_writes distinct tidy destined).mem_iff.mp (List.mem_map_of_mem ht))
    exact apart root hr below
  rw [left.others k elsewhere, if_neg]
  rintro ⟨root, hr, below⟩
  exact apart root hr below

end

/-- What a plan leaves of a tree. -/
structure Delivered (p : Planner) (packages : List Package) (mark : String) (changes : ChangeSet)
    (before after : FileTree String) : Prop where
  /-- At a package's root and below there are its manifest and its artifacts, and nothing stale. -/
  files : ∀ package ∈ packages, ∀ k, (p.packageRoot package).place <+: k →
    (after.isFile k = true ↔ k = ((p.packageRoot package).join ⟨p.manifestName⟩).place ∨
      ∃ a ∈ package.artifacts, k = (p.finalPath package a).place)
  manifest : ∀ package ∈ packages,
    after.file? ((p.packageRoot package).join ⟨p.manifestName⟩).place = some package.manifest.render
  artifact : ∀ package ∈ packages, ∀ a ∈ package.artifacts, ∃ text,
    after.file? (p.finalPath package a).place = some text ∧ Holds p packages mark changes a text
  /-- Files outside the packages are as they were. -/
  outside : ∀ k, (∀ package ∈ packages, ¬ (p.packageRoot package).place <+: k) →
    after.file? k = before.file? k

/-- An emitted file that names a builtin, beside a package with a stale file. -/
def staleTree : FileTree String :=
  ⟨[(["d"], .directory), (["d", "u.js"], .file "import \"fs\""), (["p"], .directory),
    (["p", "u"], .directory), (["p", "u", "old.js"], .file "old")]⟩

end Planner
end Apportion
