import Apportion.Proofs.Build.Work
import Apportion.Proofs.Build.Written
import Apportion.Proofs.Edit.Buffer
import Apportion.Proofs.Edit.Composable
import Apportion.Proofs.Plan.References
import Mathlib.Data.List.Pairwise

/-!
Which plans can be carried out. A plan has looked at the references that follow their targets, and
not at the marks of builtins, so that an artifact's edits are accepted unless a reference is edited
twice (`accepted_iff`). In a workspace without failures a plan is carried out unless there is such a
reference, or a file is in the way of another one (`applies_iff`).
-/
namespace Apportion
open Apply

/-! ## References -/

/-- References that stand in the text of their artifact and do not overlap. -/
structure Artifact.Orderly (a : Artifact) : Prop where
  fits : ∀ r ∈ a.references, r.range.Fits a.content.toList
  apart : a.references.Pairwise fun r s => r.range.overlaps s.range = false

instance (a : Artifact) : Decidable a.Orderly :=
  decidable_of_iff ((∀ r ∈ a.references, r.range.Fits a.content.toList) ∧
    a.references.Pairwise fun r s => r.range.overlaps s.range = false)
    ⟨fun h => ⟨h.1, h.2⟩, fun h => ⟨h.1, h.2⟩⟩

namespace Planner

/-- A reference that follows a packaged target, and is marked as a builtin besides. -/
structure EditedTwice (packages : List Package) (mark : String) (r : Reference) : Prop where
  follows : ∃ target, r.target = some target ∧ ∃ package ∈ packages, package.contains target = true
  marked : markEdit mark r ≠ none

section
variable {p : Planner} {packages : List Package} {mark : String} {changes : ChangeSet}
  {paths : PathMap} {a : Artifact}

theorem range_of_markEdit {r : Reference} {e : TextEdit} (h : markEdit mark r = some e) :
    e.range = r.range := by
  unfold markEdit at h
  split at h
  · cases h
    rfl
  · cases h

/-- Two edits of a list of references that do not overlap meet only if both are of one reference. -/
theorem pairwise_edits_iff {references : List Reference} {f g : Reference → Option TextEdit}
    (apart : references.Pairwise fun r s => r.range.overlaps s.range = false)
    (own : ∀ r ∈ references, ∀ e, f r = some e → e.range = r.range)
    (own' : ∀ r ∈ references, ∀ e, g r = some e → e.range = r.range) :
    (references.filterMap f ++ references.filterMap g).Pairwise
        (fun d e => d.range.overlaps e.range = false) ↔
      ∀ r ∈ references, ¬ (f r ≠ none ∧ g r ≠ none) := by
  have each {h : Reference → Option TextEdit}
      (own : ∀ r ∈ references, ∀ e, h r = some e → e.range = r.range) :
      (references.filterMap h).Pairwise fun d e => d.range.overlaps e.range = false :=
    List.pairwise_filterMap.mpr (apart.imp_of_mem fun {r s} hr hs clear d hd e he => by
      rw [own r hr d hd, own s hs e he, clear])
  have symmetric : Std.Symm fun r s : Reference => r.range.overlaps s.range = false :=
    ⟨fun r s clear => by rw [ByteRange.overlaps_comm, clear]⟩
  constructor
  · rintro clear r hr ⟨hf, hg⟩
    obtain ⟨d, hd⟩ := Option.ne_none_iff_exists'.mp hf
    obtain ⟨e, he⟩ := Option.ne_none_iff_exists'.mp hg
    have meet := (List.pairwise_append.mp clear).2.2 d (List.mem_filterMap.mpr ⟨r, hr, hd⟩) e
      (List.mem_filterMap.mpr ⟨r, hr, he⟩)
    rw [own r hr d hd, own' r hr e he, ByteRange.overlaps_self] at meet
    cases meet
  · intro once
    refine List.pairwise_append.mpr ⟨each own, each own', fun d hd e he => ?_⟩
    obtain ⟨r, hr, hd⟩ := List.mem_filterMap.mp hd
    obtain ⟨s, hs, he⟩ := List.mem_filterMap.mp he
    have ne : r ≠ s := by
      rintro rfl
      exact once r hr ⟨by simp [hd], by simp [he]⟩
    rw [own r hr d hd, own' s hs e he]
    exact apart.forall hr hs ne

/-- The edits of an orderly artifact are accepted unless a reference is edited twice. -/
theorem accepted_iff (planned : p.plan packages = .ok changes)
    (ha : a ∈ packages.flatMap (·.artifacts)) (orderly : a.Orderly) :
    (∃ b, (EditBuffer.ofText a.content).overwriteAll (editsFor mark changes a) = .ok b) ↔
      ∀ r ∈ a.references, ¬ EditedTwice packages mark r := by
  obtain ⟨paths, final, each, -, planned'⟩ := editsOf_of_plan planned ha
  have own : ∀ r ∈ a.references, ∀ e, followEdit paths a.path r = some e → e.range = r.range :=
    fun r hr e he => range_of_referenceEdit (he ▸ each r hr)
  have own' : ∀ r ∈ a.references, ∀ e, markEdit mark r = some e → e.range = r.range :=
    fun r _ e he => range_of_markEdit he
  have perm : (editsFor mark changes a).Perm (a.references.filterMap (followEdit paths a.path) ++
      a.references.filterMap (markEdit mark)) := by
    rw [editsFor, planned']
    exact (List.mergeSort_perm _ _).append_right _
  have fit : ∀ e ∈ editsFor mark changes a, e.range.Fits a.content.toList := by
    intro e he
    rcases List.mem_append.mp (perm.mem_iff.mp he) with he | he
    · obtain ⟨r, hr, he⟩ := List.mem_filterMap.mp he
      exact own r hr e he ▸ orderly.fits r hr
    · obtain ⟨r, hr, he⟩ := List.mem_filterMap.mp he
      exact own' r hr e he ▸ orderly.fits r hr
  have apart : (editsFor mark changes a).Pairwise (fun d e => d.range.overlaps e.range = false) ↔
      ∀ r ∈ a.references, ¬ (followEdit paths a.path r ≠ none ∧ markEdit mark r ≠ none) := by
    rw [← pairwise_edits_iff orderly.apart own own']
    exact perm.pairwise_iff fun {d e} clear => by rw [ByteRange.overlaps_comm, clear]
  rw [(EditBuffer.sound_ofText a.content).overwriteAll_isOk_iff, apart]
  constructor
  · rintro ⟨-, once⟩ r hr twice
    exact once r hr ⟨(referenceEdit_isSome_iff final (each r hr)).mpr
      (Reference.isAssigned_iff.mpr twice.follows), twice.marked⟩
  · intro once
    refine ⟨fun e he => ⟨fit e he, fun f hf => absurd hf List.not_mem_nil⟩, ?_⟩
    rintro r hr ⟨follows, marked⟩
    exact once r hr ⟨Reference.isAssigned_iff.mp
      ((referenceEdit_isSome_iff final (each r hr)).mp follows), marked⟩

/-! ## Maps -/

theorem intact_of_revisedMap {path : Path} {text : String} {m written : PositionMap}
    (parsed : PositionMap.parse text = .ok m) (intact : m.Intact)
    (h : revisedMap changes path text = .ok written) : written.Intact := by
  unfold revisedMap at h
  rw [parsed] at h
  cases planned : changes.sourcesOf path with
  | none =>
    rw [planned] at h
    cases h
    exact intact
  | some sources =>
    rw [planned] at h
    exact intact.withSources h

/-- A packaged artifact that holds an intact map is written as one. -/
theorem exists_revisedMap (planned : p.plan packages = .ok changes)
    (ha : a ∈ packages.flatMap (·.artifacts)) {m : PositionMap}
    (parsed : PositionMap.parse a.content = .ok m) (intact : m.Intact) :
    ∃ written, revisedMap changes a.path a.content = .ok written ∧ written.Intact := by
  have made : ∃ written, revisedMap changes a.path a.content = .ok written := by
    cases kind : a.isMap with
    | true =>
      obtain ⟨-, -, -, written, -, -, -, made, -⟩ := revisedMap_of_plan planned ha kind
      exact ⟨written, made⟩
    | false =>
      refine ⟨m, ?_⟩
      unfold revisedMap
      rw [parsed, sourcesOf_of_text planned ha kind]
      rfl
  obtain ⟨written, made⟩ := made
  exact ⟨written, made, intact_of_revisedMap parsed intact made⟩

end

/-! ## The work of a plan -/

/-- A position map by its name, or as the map that an artifact says it has. -/
def IsMapAmong (artifacts : List Artifact) (b : Artifact) : Prop :=
  b.isMap = true ∨ ∃ a ∈ artifacts, ∃ path, a.map? = some path ∧ path.components = b.path.components

instance (artifacts : List Artifact) (b : Artifact) : Decidable (IsMapAmong artifacts b) :=
  inferInstanceAs (Decidable (b.isMap = true ∨
    ∃ a ∈ artifacts, ∃ path ∈ a.map?, path.components = b.path.components))

section
variable {p : Planner} {part : Partition} {mark : String} {modules : List EmittedModule}
  {artifacts : List Artifact} {changes : ChangeSet} {paths : PathMap}
  (planned : p.plan (part.packages modules artifacts) = .ok changes)
include planned

/-- What is copied is a packaged artifact, whose text is at hand. -/
theorem exists_text_of_copied {move : Path × Path} (h : move ∈ copied mark artifacts changes paths) :
    ∃ text, (copyTask artifacts changes move.1 move.2).supply = .known (.ok text) := by
  obtain ⟨package, hp, a, ha, source, -⟩ := (mem_moves_iff planned).mp (List.mem_filter.mp h).1
  have packaged := List.mem_flatMap.mpr ⟨package, hp, ha⟩
  have text : ∃ text, revisedText changes a.path a.content = .ok text := by
    cases kind : a.isMap with
    | false => exact ⟨_, revisedText_eq_ok.mpr (.inl ⟨sourcesOf_of_text planned packaged kind, rfl⟩)⟩
    | true =>
      obtain ⟨-, -, -, written, -, -, -, made, -⟩ := revisedMap_of_plan planned packaged kind
      unfold revisedText
      split
      · exact ⟨_, by rw [made]; rfl⟩
      · exact ⟨_, rfl⟩
  obtain ⟨text, made⟩ := text
  refine ⟨text, ?_⟩
  rw [← source, copyTask, artifactAt_of_plan planned packaged rfl]
  exact congrArg Supply.known made

/-- No task of a plan reads what was written before. -/
theorem known_of_plan : ∀ t ∈ (work mark artifacts changes paths).tasks,
    ∃ x, t.supply = .known x := by
  intro t ht
  rcases mem_tasks_iff.mp ht with ⟨manifest, -, rfl⟩ | ⟨r, hr, rfl⟩ |
    ⟨r, path, map, target, hc, rfl⟩ | ⟨move, hm, rfl⟩
  · exact ⟨_, rfl⟩
  · exact ⟨_, rfl⟩
  · exact ⟨_, rfl⟩
  · obtain ⟨text, known⟩ := exists_text_of_copied planned hm
    exact ⟨_, known⟩

variable (destined : changes.destinations = .ok paths)
include destined

/-- The edits of all edited artifacts are accepted exactly if no reference is edited twice. -/
theorem revisions_accepted_iff (orderly : ∀ a ∈ artifacts, a.Orderly) :
    (∀ r ∈ Apply.revisions mark artifacts changes paths,
        ∃ b, (EditBuffer.ofText r.artifact.content).overwriteAll r.edits = .ok b) ↔
      ∀ package ∈ part.packages modules artifacts, ∀ a ∈ package.artifacts, a.isMap = false →
        ∀ r ∈ a.references, ¬ EditedTwice (part.packages modules artifacts) mark r := by
  constructor
  · intro accepted package hp a ha kind r hr twice
    have mem := Partition.mem_of_mem_artifacts hp ha
    have some : editsFor mark changes a ≠ [] := by
      obtain ⟨e, he⟩ := Option.ne_none_iff_exists'.mp twice.marked
      exact List.ne_nil_of_mem (List.mem_append_right _ (List.mem_filterMap.mpr ⟨r, hr, he⟩))
    have edited : (⟨a, p.finalPath package a, editsFor mark changes a⟩ : Revision) ∈
        Apply.revisions mark artifacts changes paths := mem_revisions_iff.mpr
      ⟨mem, (get?_destinations planned destined).mpr ⟨package, hp, a, ha, rfl, rfl⟩, kind, some, rfl⟩
    exact (accepted_iff planned (List.mem_flatMap.mpr ⟨package, hp, ha⟩) (orderly a mem)).mp
      (accepted _ edited) r hr twice
  · intro once r hr
    obtain ⟨mem, led, kind, -, edits⟩ := mem_revisions_iff.mp hr
    obtain ⟨package, hp, b, hb, same, -⟩ := (get?_destinations planned destined).mp led
    have ha := Partition.mem_artifacts_congr hp hb mem same
    rw [edits, accepted_iff planned (List.mem_flatMap.mpr ⟨package, hp, ha⟩) (orderly _ mem)]
    exact once package hp _ ha kind

/-- All texts of a plan are at hand exactly if the edits of every edited artifact are accepted. -/
theorem texts_iff (maps : ∀ b ∈ artifacts, IsMapAmong artifacts b →
      ∃ m, PositionMap.parse b.content = .ok m ∧ m.Intact) :
    (∀ t ∈ (work mark artifacts changes paths).tasks, ∃ text, t.supply = .known (.ok text)) ↔
      ∀ r ∈ Apply.revisions mark artifacts changes paths,
        ∃ b, (EditBuffer.ofText r.artifact.content).overwriteAll r.edits = .ok b := by
  constructor
  · intro texts r hr
    obtain ⟨text, known⟩ := texts r.task (mem_tasks_iff.mpr (.inr (.inl ⟨r, hr, rfl⟩)))
    obtain ⟨buffer, accepted, -⟩ := Revision.at_task_eq_ok.mp
      (show r.task.supply.at .empty = .ok text by rw [known]; rfl)
    exact ⟨buffer, accepted⟩
  · intro accepted t ht
    rcases mem_tasks_iff.mp ht with ⟨manifest, -, rfl⟩ | ⟨r, hr, rfl⟩ |
      ⟨r, path, map, target, hc, rfl⟩ | ⟨move, hm, rfl⟩
    · exact ⟨_, rfl⟩
    · obtain ⟨buffer, ok⟩ := accepted r hr
      have made : r.task.supply.at .empty = .ok buffer.render :=
        Revision.at_task_eq_ok.mpr ⟨buffer, ok, rfl⟩
      exact ⟨_, congrArg Supply.known made⟩
    · obtain ⟨hr, owned, found, led⟩ := mem_companions_iff.mp hc
      obtain ⟨package, hp, b, hb, same, -⟩ := (get?_destinations planned destined).mp led
      have packaged := List.mem_flatMap.mpr ⟨package, hp, hb⟩
      obtain rfl := Option.some.inj ((artifactAt_of_plan planned packaged same).symm.trans found)
      obtain ⟨m, parsed, intact⟩ := maps b (Partition.mem_of_mem_artifacts hp hb)
        (.inr ⟨r.artifact, (mem_revisions_iff.mp hr).1, path, owned, same.symm⟩)
      obtain ⟨inner, revised, whole⟩ := exists_revisedMap planned packaged parsed intact
      obtain ⟨buffer, ok⟩ := accepted r hr
      obtain ⟨composed, joined⟩ := buffer.exists_compose whole r.name r.name
      have made : composedMap changes b path (buffer.positionMap r.name r.name) =
          .ok { composed with file := inner.file <|> some r.name } := by
        rw [composedMap, revisedMap_congr same.symm]
        exact Except.bind_eq_ok.mpr ⟨inner, revised, Except.bind_eq_ok.mpr ⟨composed, joined, rfl⟩⟩
      have text : (compositionTask changes r path b target).supply.at .empty = .ok _ :=
        at_compositionTask_eq_ok.mpr ⟨buffer, _, ok, made, rfl⟩
      exact ⟨_, congrArg Supply.known text⟩
    · exact exists_text_of_copied planned hm

end

/-! ## Plans that can be carried out -/

/-- In a workspace without failures and with no file where a package is to be, a plan is carried out
exactly if none of its artifacts has a reference that is edited twice, and nothing is in the way of
what is written below the new directories. -/
theorem applies_iff {p : Planner} {part : Partition} {mark : String} {modules : List EmittedModule}
    {artifacts : List Artifact} {changes : ChangeSet} {s : Memory}
    (orderly : ∀ a ∈ artifacts, a.Orderly)
    (maps : ∀ b ∈ artifacts, IsMapAmong artifacts b →
      ∃ m, PositionMap.parse b.content = .ok m ∧ m.Intact)
    (planned : p.plan (part.packages modules artifacts) = .ok changes) (sure : s.rules = [])
    (free : ∀ root ∈ changes.directories, ∀ k, k <+: root.place → s.tree.isFile k = false) :
    (∃ summary, (apply (m := StateM Memory) mark artifacts changes s).1 = .ok summary) ↔
      (∀ package ∈ part.packages modules artifacts, ∀ a ∈ package.artifacts, a.isMap = false →
        ∀ r ∈ a.references, ¬ EditedTwice (part.packages modules artifacts) mark r) ∧
      (renewed changes.directories s.tree).Unobstructed (changes.writes.map (·.place)) := by
  obtain ⟨paths, destined⟩ := destinations_of_plan planned
  have places : ∀ k, k ∈ (work mark artifacts changes paths).tasks.map (·.target.place) ↔
      k ∈ changes.writes.map (·.place) := by
    intro k
    rw [show (fun t : Task => t.target.place) = (·.place) ∘ (·.target) from rfl, ← List.map_map]
    simp only [List.mem_map (f := fun path : Path => path.place), mem_targets_iff destined]
  have free' : ∀ root ∈ (work mark artifacts changes paths).directories, ∀ k, k <+: root.place →
      s.tree.isFile k = false := free
  rw [apply_isOk_iff destined sure, Work.isOk_actAt_iff (known_of_plan planned) free',
    texts_iff planned destined maps, revisions_accepted_iff planned destined orderly]
  refine and_congr_right fun _ => ⟨?_, ?_⟩
  · exact fun clear => clear.of_mem fun k hk => (places k).mpr hk
  · exact fun clear => clear.of_mem fun k hk => (places k).mp hk

theorem isFile_empty (k : Key) : (FileTree.empty : FileTree String).isFile k = false := by
  by_cases nil : k = [] <;>
    simp [FileTree.isFile, FileTree.file?, FileTree.get?, FileTree.empty, nil]

/-- A file with a builtin to be marked and a reference that follows its target, and the file's map. -/
theorem applies_iff_builtin :
    let a : Artifact := ⟨⟨"/d/u.js"⟩, "import \"fs\";import \"./u\"",
      [⟨"fs", ⟨8, 10⟩, none, true⟩, ⟨"./u", ⟨20, 23⟩, some ⟨"/d/u.js"⟩, false⟩], true⟩
    let b : Artifact := ⟨⟨"/d/u.js.map"⟩,
      "\x7b\"version\":3,\"sources\":[\"../u.ts\"],\"names\":[],\"mappings\":\"AAAA\"\x7d", [], false⟩
    let packages := Partition.packages ⟨⟨"/d"⟩, ".js"⟩ [.file ⟨"u.js"⟩] [a, b]
    ∃ changes, (∀ c ∈ [a, b], c.Orderly) ∧ a.map? = some b.path ∧ IsMapAmong [a, b] b ∧
      (∃ m, PositionMap.parse b.content = .ok m ∧ m.Intact) ∧
      (Planner.mk ⟨"/d"⟩ ⟨"/p"⟩ "package.json").plan packages = .ok changes ∧
      ∃ summary,
        (apply (m := StateM Memory) "node:" [a, b] changes (.ofTree .empty)).1 = .ok summary := by
  intro a b packages
  let p : Planner := ⟨⟨"/d"⟩, ⟨"/p"⟩, "package.json"⟩
  have planned := Except.eq_ok_of_isSome (x := p.plan packages) (by
    unfold plan finalPaths
    rw [PathMap.ofPairs_of_ordered (by decide +kernel) (by decide +kernel)]
    decide +kernel) ⟨[]⟩
  have orderly : ∀ c ∈ [a, b], c.Orderly := by decide +kernel
  have intact : ∃ m, PositionMap.parse b.content = .ok m ∧ m.Intact := by
    have checked : (PositionMap.parse b.content).toOption.any (fun m => m.Intact) = true := by
      decide +kernel
    obtain ⟨m, parsed, intact⟩ := (Option.any_eq_true _ _).mp checked
    exact ⟨m, Except.eq_ok_of_toOption parsed, of_decide_eq_true intact⟩
  have maps : ∀ c ∈ [a, b], IsMapAmong [a, b] c →
      ∃ m, PositionMap.parse c.content = .ok m ∧ m.Intact := by
    have other : ¬ IsMapAmong [a, b] a := by decide +kernel
    intro c hc among
    obtain rfl | rfl := List.mem_pair.mp hc
    · exact absurd among other
    · exact intact
  have once : ∀ package ∈ packages, ∀ c ∈ package.artifacts, c.isMap = false →
      ∀ r ∈ c.references, ¬ EditedTwice packages "node:" r := by
    have checked : ∀ c ∈ [a, b], ∀ r ∈ c.references,
        (r.target.isSome && (markEdit "node:" r).isSome) = false := by decide +kernel
    intro package hp c hc _ r hr twice
    obtain ⟨target, follows, -⟩ := twice.follows
    obtain ⟨edit, marked⟩ := Option.ne_none_iff_exists'.mp twice.marked
    have no := checked c (Partition.mem_of_mem_artifacts hp hc) r hr
    rw [follows, marked] at no
    cases no
  have clear : (renewed (packages.map p.packageRoot) .empty).Unobstructed
      ((p.targets packages).map (·.place)) :=
    ⟨by decide +kernel, by decide +kernel, by decide +kernel⟩
  have owned : a.map? = some b.path := by
    rw [Artifact.map?, if_pos (by decide +kernel)]
    exact congrArg (some ∘ Path.mk) (by decide +kernel : "/d/u.js" ++ ".map" = "/d/u.js.map")
  refine ⟨_, orderly, owned, .inl (by decide +kernel), intact, planned,
    (applies_iff (p := p) orderly maps planned rfl fun _ _ k _ => isFile_empty k).mpr ⟨once, ?_⟩⟩
  rw [(plan_eq_ok planned).2.1]
  exact clear.of_mem fun k hk => ((writes_perm planned).map _).mem_iff.mp hk

/-- A reference that follows its target and is a builtin besides: the plan is made, and cannot be
carried out. -/
theorem reference_edited_twice :
    let artifacts : List Artifact :=
      [⟨⟨"/d/util.js"⟩, "import \"util\"", [⟨"util", ⟨8, 12⟩, some ⟨"/d/util.js"⟩, true⟩], false⟩]
    let packages := Partition.packages ⟨⟨"/d"⟩, ".js"⟩ [.file ⟨"util.js"⟩] artifacts
    ∃ changes, (∀ a ∈ artifacts, a.Orderly) ∧ (∀ b ∈ artifacts, ¬ IsMapAmong artifacts b) ∧
      (Planner.mk ⟨"/d"⟩ ⟨"/p"⟩ "package.json").plan packages = .ok changes ∧
      (∀ k, (Memory.ofTree .empty).tree.isFile k = false) ∧
      ¬ ∃ summary,
        (apply (m := StateM Memory) "node:" artifacts changes (.ofTree .empty)).1 = .ok summary := by
  intro artifacts packages
  have planned := Except.eq_ok_of_isSome
    (x := (Planner.mk ⟨"/d"⟩ ⟨"/p"⟩ "package.json").plan packages) (by decide +kernel) ⟨[]⟩
  have failed : ((apply (m := StateM Memory) "node:" artifacts
      (((Planner.mk ⟨"/d"⟩ ⟨"/p"⟩ "package.json").plan packages).toOption.getD ⟨[]⟩)
      (.ofTree .empty)).1).toOption.isSome = false := by decide +kernel
  refine ⟨_, by decide +kernel, by decide +kernel, planned, ?_, ?_⟩
  · exact isFile_empty
  · rintro ⟨summary, ok⟩
    rw [ok] at failed
    cases failed

end Planner
end Apportion
