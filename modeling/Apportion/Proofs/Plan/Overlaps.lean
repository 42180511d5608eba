import Apportion.Proofs.Plan.Discovered
import Apportion.Proofs.Plan.References

/-!
Overlaps, as a plan and a buffer see them. A plan looks at neighbours in the order of ranges, a buffer at
the neighbours of each new edit; both find out exactly whether two of the ranges overlap
(`firstOverlap_inOrder_eq_none_iff`, `overwriteAll_all_orders_iff`). So a plan that comes as far as an
artifact's edits fails there with an overlap exactly if two of its references to packaged artifacts
overlap (`checks_agree`).
-/
namespace Apportion

/-! ## Lists of edits -/

theorem pairwise_overlaps_perm {edits others : List TextEdit} (perm : edits.Perm others) :
    edits.Pairwise (fun e f => e.range.overlaps f.range = false) ↔
      others.Pairwise fun e f => e.range.overlaps f.range = false :=
  perm.pairwise_iff fun {e f} clear => by rw [ByteRange.overlaps_comm, clear]

namespace Planner

theorem firstOverlap_eq_none {edits : List TextEdit}
    (apart : edits.Pairwise fun e f => e.range.overlaps f.range = false) :
    firstOverlap edits = none := by
  induction edits with
  | nil => rfl
  | cons e rest ih =>
    obtain ⟨first, apart⟩ := List.pairwise_cons.mp apart
    cases rest with
    | nil => rfl
    | cons f rest =>
      rw [firstOverlap, first f List.mem_cons_self]
      exact ih apart

/-- The check of neighbours finds an overlap exactly if there is one. -/
theorem firstOverlap_inOrder_eq_none_iff {edits : List TextEdit}
    (forward : ∀ e ∈ edits, e.range.start ≤ e.range.stop) : firstOverlap (inOrder edits) = none ↔
      edits.Pairwise fun e f => e.range.overlaps f.range = false := by
  have perm : (inOrder edits).Perm edits := List.mergeSort_perm _ _
  rw [← pairwise_overlaps_perm perm]
  refine ⟨fun none => ?_, firstOverlap_eq_none⟩
  have forward' : ∀ e ∈ inOrder edits, e.range.start ≤ e.range.stop := fun e he =>
    forward e (perm.mem_iff.mp he)
  refine (before_of_firstOverlap forward' (pairwise_inOrder edits) none).imp_of_mem ?_
  intro e f he hf before
  exact (ByteRange.overlaps_eq_false_iff (forward' e he) (forward' f hf)).mpr (.inl before)

end Planner

/-- Edits that fit a text are accepted in every order exactly if no two overlap. -/
theorem EditBuffer.overwriteAll_all_orders_iff {text : String} {edits : List TextEdit}
    (fits : ∀ e ∈ edits, e.range.Fits text.toList) :
    (∀ order : List TextEdit, order.Perm edits → ∃ b, (ofText text).overwriteAll order = .ok b) ↔
      edits.Pairwise fun e f => e.range.overlaps f.range = false := by
  have sound := sound_ofText text
  constructor
  · exact fun all => (sound.overwriteAll_isOk_iff.mp (all edits (.refl _))).2
  · intro apart order perm
    refine sound.overwriteAll_isOk_iff.mpr ⟨fun e he => ⟨fits e (perm.mem_iff.mp he), nofun⟩, ?_⟩
    exact (pairwise_overlaps_perm perm).mpr apart

/-! ## References -/

/-- Two references of an artifact to packaged artifacts overlap. -/
def Artifact.Clashes (packages : List Package) (a : Artifact) : Prop :=
  ∃ r s, [r, s].Sublist (a.references.filter (·.isAssigned packages)) ∧
    r.range.overlaps s.range = true

namespace Planner
variable {p : Planner} {packages : List Package} {paths : PathMap} {a : Artifact}

theorem not_clashes_iff : ¬ a.Clashes packages ↔
    (a.references.filter (·.isAssigned packages)).Pairwise
      fun r s => r.range.overlaps s.range = false := by
  rw [List.pairwise_iff_forall_sublist, Artifact.Clashes]
  simp only [not_exists, not_and, Bool.not_eq_true]

/-- The edits of an artifact stand where its references to packaged artifacts do. -/
theorem ranges_of_referenceEdits (final : p.finalPaths packages = .ok paths) {path : Path}
    {references : List Reference} {found : List (Option TextEdit)}
    (made : references.mapM (referenceEdit paths path) = .ok found) :
    (found.filterMap id).map (·.range) =
      (references.filter (·.isAssigned packages)).map (·.range) := by
  induction references generalizing found with
  | nil =>
    cases made
    rfl
  | cons r references ih =>
    rw [List.mapM_cons] at made
    obtain ⟨edit, here, made⟩ := Except.bind_eq_ok.mp made
    obtain ⟨rest, later, made⟩ := Except.bind_eq_ok.mp made
    cases made
    have assigned := referenceEdit_isSome_iff final here
    cases edit with
    | none =>
      have no : r.isAssigned packages = false := by simpa using assigned
      simpa [no] using ih later
    | some e =>
      have yes : r.isAssigned packages = true := assigned.mp (by simp)
      simpa [yes, range_of_referenceEdit here] using ih later

/-- Edits are found to overlap exactly if the references do that they are made for. -/
theorem exists_firstOverlap_iff (forward : ∀ r ∈ a.references, r.range.start ≤ r.range.stop)
    (final : p.finalPaths packages = .ok paths) {found : List (Option TextEdit)}
    (made : a.references.mapM (referenceEdit paths a.path) = .ok found) :
    (∃ range, firstOverlap (inOrder (found.filterMap id)) = some range) ↔ a.Clashes packages := by
  have ranges := ranges_of_referenceEdits final made
  have forward' : ∀ e ∈ found.filterMap id, e.range.start ≤ e.range.stop := by
    intro e he
    have mem : e.range ∈ (found.filterMap id).map (·.range) := List.mem_map_of_mem he
    rw [ranges] at mem
    obtain ⟨r, hr, same⟩ := List.mem_map.mp mem
    rw [← same]
    exact forward r (List.mem_filter.mp hr).1
  have apart := List.pairwise_map (f := fun e : TextEdit => e.range)
    (R := fun r s : ByteRange => r.overlaps s = false) (l := found.filterMap id)
  rw [ranges, List.pairwise_map] at apart
  rw [← Option.ne_none_iff_exists', Ne, firstOverlap_inOrder_eq_none_iff forward', ← apart,
    ← not_clashes_iff, not_not]

/-! ## Faults of a plan -/

theorem referenceChange_eq_overlapping_iff {path : Path} {range : ByteRange} :
    referenceChange paths a = .error (.overlappingReferences path range) ↔ ∃ found,
      a.references.mapM (referenceEdit paths a.path) = .ok found ∧
      firstOverlap (inOrder (found.filterMap id)) = some range ∧ a.path = path := by
  unfold referenceChange
  rw [Except.bind_eq_error]
  constructor
  · rintro (fails | ⟨found, made, h⟩)
    · -- an edit is not made for want of a destination only
      obtain ⟨r, -, h⟩ := Except.exists_of_mapM_error fails
      unfold referenceEdit at h
      split at h
      · cases h
      · unfold finalDirectory at h
        split at h <;> cases h
    · refine ⟨found, made, ?_⟩
      simp only at h
      split at h
      · cases h
      · split at h
        · rename_i overlap
          cases h
          exact ⟨overlap, rfl⟩
        · cases h
  · rintro ⟨found, made, overlap, rfl⟩
    refine .inr ⟨found, made, ?_⟩
    have some : ¬ (inOrder (found.filterMap id)).isEmpty = true := by
      intro none
      rw [List.isEmpty_iff.mp none] at overlap
      cases overlap
    unfold inOrder at some overlap
    simp only [if_neg some, overlap]
    rfl

theorem revisions_eq_overlapping_iff {path : Path} {range : ByteRange} :
    revisions paths a = .error (.overlappingReferences path range) ↔
      referenceChange paths a = .error (.overlappingReferences path range) := by
  unfold revisions
  rw [Except.bind_eq_error]
  refine or_iff_left ?_
  rintro ⟨references, -, h⟩
  simp only at h
  split at h
  · rcases Except.bind_eq_error.mp h with h | ⟨sources, -, h⟩
    · rcases Except.bind_eq_error.mp h with h | ⟨map, -, h⟩
      · cases parsed : PositionMap.parse a.content <;> rw [parsed] at h <;> cases h
      · rcases Except.bind_eq_error.mp h with h | ⟨dir, -, h⟩
        · unfold finalDirectory at h
          split at h <;> cases h
        · cases h
    · cases h
  · cases h

theorem about_assignment_of_finalPaths {e : PlanError} (h : p.finalPaths packages = .error e) :
    e.isAboutAssignment = true := by
  unfold finalPaths at h
  cases made : PathMap.ofPairs (packages.flatMap fun package =>
      package.artifacts.map fun a => (a.path, p.finalPath package a)) with
  | ok paths =>
    rw [made] at h
    cases h
  | error conflict =>
    rw [made] at h
    cases h
    cases conflict <;> rfl

/-- Planning comes as far as the check of an artifact's edits: the roots pass theirs, every artifact has
a destination, those before are revised, and the edits of the artifact are made. -/
def Reaches (p : Planner) (packages : List Package) (a : Artifact) : Prop :=
  p.checkRoots (p.emitted packages) [] packages = .ok () ∧
  ∃ paths front back done found, p.finalPaths packages = .ok paths ∧
    packages.flatMap (·.artifacts) = front ++ a :: back ∧
    front.mapM (revisions paths) = .ok done ∧
    a.references.mapM (referenceEdit paths a.path) = .ok found

/-- A plan fails with an overlap exactly where it comes to an artifact whose references overlap. -/
theorem plan_eq_overlapping_iff
    (forward : ∀ package ∈ packages, ∀ a ∈ package.artifacts, ∀ r ∈ a.references,
      r.range.start ≤ r.range.stop) {path : Path} :
    (∃ range, p.plan packages = .error (.overlappingReferences path range)) ↔
      ∃ a, p.Reaches packages a ∧ a.path = path ∧ a.Clashes packages := by
  have forward' {a : Artifact} (ha : a ∈ packages.flatMap (·.artifacts)) :
      ∀ r ∈ a.references, r.range.start ≤ r.range.stop := by
    obtain ⟨package, hp, ha⟩ := List.mem_flatMap.mp ha
    exact forward package hp a ha
  constructor
  · rintro ⟨range, h⟩
    rcases Except.bind_eq_error.mp h with h | ⟨⟨⟩, passed, h⟩
    · cases about_roots_of_checkRoots h
    · rcases Except.bind_eq_error.mp h with h | ⟨paths, final, h⟩
      · cases about_assignment_of_finalPaths h
      · rcases Except.bind_eq_error.mp h with h | ⟨revised, -, h⟩
        · obtain ⟨front, a, back, done, whole, before, fails⟩ := Except.mapM_eq_error_iff.mp h
          rw [revisions_eq_overlapping_iff, referenceChange_eq_overlapping_iff] at fails
          obtain ⟨found, made, overlap, here⟩ := fails
          have clash := (exists_firstOverlap_iff (forward' (by simp [whole])) final made).mp
            ⟨range, overlap⟩
          exact ⟨a, ⟨passed, paths, front, back, done, found, final, whole, before, made⟩, here, clash⟩
        · cases h
  · rintro ⟨a, ⟨passed, paths, front, back, done, found, final, whole, before, made⟩, here, clash⟩
    obtain ⟨range, overlap⟩ :=
      (exists_firstOverlap_iff (forward' (by simp [whole])) final made).mpr clash
    refine ⟨range, Except.bind_eq_error.mpr (.inr ⟨(), passed, ?_⟩)⟩
    refine Except.bind_eq_error.mpr (.inr ⟨paths, final, Except.bind_eq_error.mpr (.inl ?_)⟩)
    refine Except.mapM_eq_error_iff.mpr ⟨front, a, back, done, whole, before, ?_⟩
    rw [revisions_eq_overlapping_iff, referenceChange_eq_overlapping_iff]
    exact ⟨found, made, overlap, here⟩

/-- A plan that is made has come to every packaged artifact. -/
theorem reaches_of_plan {changes : ChangeSet} (planned : p.plan packages = .ok changes)
    (ha : a ∈ packages.flatMap (·.artifacts)) : p.Reaches packages a := by
  obtain ⟨passed, paths, revised, final, each, -⟩ := plan_parts planned
  obtain ⟨front, back, whole⟩ := List.append_of_mem ha
  rw [whole, List.mapM_append] at each
  obtain ⟨done, before, each⟩ := Except.bind_eq_ok.mp each
  obtain ⟨rest, here, -⟩ := Except.bind_eq_ok.mp each
  rw [List.mapM_cons] at here
  obtain ⟨own, here, -⟩ := Except.bind_eq_ok.mp here
  obtain ⟨references, -, changed, -, -⟩ := revisions_eq_ok here
  obtain ⟨found, made, -⟩ := referenceChange_eq_ok.mp changed
  exact ⟨passed, paths, front, back, done, found, final, whole, before, made⟩

/-- So if nothing else is at fault, a plan fails exactly if the references of a packaged artifact
overlap. -/
theorem plan_overlapping_iff_clashes
    (forward : ∀ package ∈ packages, ∀ a ∈ package.artifacts, ∀ r ∈ a.references,
      r.range.start ≤ r.range.stop)
    (only : ∀ e, p.plan packages = .error e → ∃ path range, e = .overlappingReferences path range) :
    (∃ path range, p.plan packages = .error (.overlappingReferences path range)) ↔
      ∃ a ∈ packages.flatMap (·.artifacts), a.Clashes packages := by
  constructor
  · rintro ⟨path, fails⟩
    obtain ⟨a, ⟨-, paths, front, back, -, -, -, whole, -⟩, -, clash⟩ :=
      (plan_eq_overlapping_iff forward).mp fails
    exact ⟨a, by simp [whole], clash⟩
  · rintro ⟨a, ha, clash⟩
    cases planned : p.plan packages with
    | error e =>
      obtain ⟨path, range, rfl⟩ := only e planned
      exact ⟨path, range, rfl⟩
    | ok changes =>
      obtain ⟨range, fails⟩ :=
        (plan_eq_overlapping_iff forward).mpr ⟨a, reaches_of_plan planned ha, rfl, clash⟩
      cases planned.symm.trans fails

/-- Planning and editing see the same overlaps. For ranges that fit a text, the check of neighbours finds
none exactly if no two ranges overlap, and exactly if their edits are accepted in every order. A plan
fails with an overlap exactly where it comes to an artifact two of whose references to packaged artifacts
overlap; and if nothing else is at fault, it does so exactly if there is such an artifact. -/
theorem checks_agree
    (forward : ∀ package ∈ packages, ∀ a ∈ package.artifacts, ∀ r ∈ a.references,
      r.range.start ≤ r.range.stop) :
    (∀ (text : String) (edits : List TextEdit), (∀ e ∈ edits, e.range.Fits text.toList) →
      (firstOverlap (inOrder edits) = none ↔
        edits.Pairwise fun e f => e.range.overlaps f.range = false) ∧
      ((∀ order : List TextEdit, order.Perm edits →
          ∃ b, (EditBuffer.ofText text).overwriteAll order = .ok b) ↔
        edits.Pairwise fun e f => e.range.overlaps f.range = false)) ∧
    (∀ path, (∃ range, p.plan packages = .error (.overlappingReferences path range)) ↔
      ∃ a, p.Reaches packages a ∧ a.path = path ∧ a.Clashes packages) ∧
    ((∀ e, p.plan packages = .error e → ∃ path range, e = .overlappingReferences path range) →
      ((∃ path range, p.plan packages = .error (.overlappingReferences path range)) ↔
        ∃ a ∈ packages.flatMap (·.artifacts), a.Clashes packages)) := by
  refine ⟨fun text edits fits => ⟨?_, ?_⟩, fun path => plan_eq_overlapping_iff forward,
    plan_overlapping_iff_clashes forward⟩
  · exact firstOverlap_inOrder_eq_none_iff fun e he => (fits e he).forward
  · exact EditBuffer.overwriteAll_all_orders_iff fits

/-- An empty range at the start of another one overlaps it, though they share no byte. -/
theorem checks_agree_empty :
    let p : Planner := ⟨⟨"/d"⟩, ⟨"/p"⟩, "package.json"⟩
    let a : Artifact := ⟨⟨"/d/u.js"⟩, "import './u.js'", [⟨"./u.js", ⟨8, 14⟩, some ⟨"/d/u.js"⟩, false⟩,
      ⟨"", ⟨8, 8⟩, some ⟨"/d/u.js"⟩, false⟩], false⟩
    let packages := Partition.packages ⟨⟨"/d"⟩, ".js"⟩ [.file ⟨"u.js"⟩] [a]
    let edits : List TextEdit := [⟨⟨8, 14⟩, "./v.js"⟩, ⟨⟨8, 8⟩, "./v.js"⟩]
    (∀ package ∈ packages, ∀ a ∈ package.artifacts, ∀ r ∈ a.references,
      r.range.start ≤ r.range.stop) ∧
    (∀ e ∈ edits, e.range.Fits a.content.toList) ∧ firstOverlap (inOrder edits) ≠ none ∧
    p.Reaches packages a ∧ a.Clashes packages ∧
    ∃ range, p.plan packages = .error (.overlappingReferences a.path range) := by
  intro p a packages edits
  have member : ∀ package ∈ packages, ∀ b ∈ package.artifacts, b = a := by
    intro package hp b hb
    obtain rfl := List.mem_singleton.mp hp
    exact List.mem_singleton.mp (List.mem_filter.mp hb).1
  have forward : ∀ package ∈ packages, ∀ a ∈ package.artifacts, ∀ r ∈ a.references,
      r.range.start ≤ r.range.stop := by
    intro package hp b hb
    rw [member package hp b hb]
    decide
  have fits : ∀ e ∈ edits, e.range.Fits a.content.toList := by decide +kernel
  have whole : packages.flatMap (·.artifacts) = [a] := by
    have one : packages.flatMap (·.artifacts) =
        (Partition.ofFile ⟨⟨"/d"⟩, ".js"⟩ ⟨"u.js"⟩ [a]).artifacts := List.append_nil _
    rw [one]
    exact List.filter_eq_self.mpr (by decide +kernel)
  have reaches : p.Reaches packages a := by
    have final := Except.eq_ok_of_isSome (x := p.finalPaths packages) (by decide +kernel) ⟨[]⟩
    have made := Except.eq_ok_of_isSome (x := a.references.mapM (referenceEdit
      ((p.finalPaths packages).toOption.getD ⟨[]⟩) a.path)) (by decide +kernel) []
    exact ⟨Except.eq_ok_of_isSome (by decide +kernel) (), _, [], [], [], _, final, whole, rfl, made⟩
  have clash : a.Clashes packages := by
    have all : a.references.filter (·.isAssigned packages) = a.references :=
      List.filter_eq_self.mpr (by decide +kernel)
    refine ⟨⟨"./u.js", ⟨8, 14⟩, some ⟨"/d/u.js"⟩, false⟩, ⟨"", ⟨8, 8⟩, some ⟨"/d/u.js"⟩, false⟩, ?_,
      by decide⟩
    rw [all]
  obtain ⟨lists, fails, -⟩ := @checks_agree p packages forward
  refine ⟨forward, fits, ?_, reaches, clash, (fails a.path).mpr ⟨a, reaches, rfl, clash⟩⟩
  rw [Ne, (lists a.content edits fits).1]
  decide

end Planner
end Apportion
