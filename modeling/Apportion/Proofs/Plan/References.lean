import Apportion.Proofs.Edit.Buffer
import Apportion.Proofs.Plan.Lookup
import Apportion.Proofs.Plan.Sources
import Mathlib.Data.List.Perm.Basic

/-!
Where planned edits lead. A packaged artifact has at most one change of its references, with one edit
for each reference to a packaged artifact and for no other reference. Such an edit stands where the
reference does, and is spelled as the way from the destination of the artifact to that of the target
(`follows_of_plan`). The check of neighbours keeps all of them apart (`before_of_firstOverlap`).
-/
namespace Apportion

/-- Whether a reference is to a packaged artifact. -/
def Reference.isAssigned (packages : List Package) (r : Reference) : Bool :=
  r.target.any fun target => packages.any fun package => package.contains target

theorem Reference.isAssigned_iff {packages : List Package} {r : Reference} :
    r.isAssigned packages = true ↔
      ∃ target, r.target = some target ∧ ∃ package ∈ packages, package.contains target = true := by
  cases h : r.target <;> simp [isAssigned, h]

namespace Planner

section
variable {p : Planner} {packages : List Package} {package : Package} {changes : ChangeSet}
  {paths : PathMap} {a : Artifact} {r : Reference}

/-! ## One reference -/

theorem referenceEdit_isSome_iff (final : p.finalPaths packages = .ok paths) {path : Path}
    {edit : Option TextEdit} (h : referenceEdit paths path r = .ok edit) :
    edit ≠ none ↔ r.isAssigned packages = true := by
  have found : r.target.bind paths.get? ≠ none ↔ r.isAssigned packages = true := by
    rw [Option.ne_none_iff_exists', Reference.isAssigned_iff]
    simp only [Option.bind_eq_some_iff, get?_finalPaths final, Package.contains, List.any_eq_true,
      Path.beq_iff]
    constructor
    · rintro ⟨_, target, ht, package, hp, b, hb, same, -⟩
      exact ⟨target, ht, package, hp, b, hb, same⟩
    · rintro ⟨target, ht, package, hp, b, hb, same⟩
      exact ⟨_, target, ht, package, hp, b, hb, same, rfl⟩
  rw [← found]
  unfold referenceEdit at h
  split at h
  · rename_i none
    cases h
    simp [none]
  · rename_i target some
    obtain ⟨dir, -, rfl⟩ := Except.map_eq_ok.mp h
    simp [some]

theorem range_of_referenceEdit {path : Path} {e : TextEdit}
    (h : referenceEdit paths path r = .ok (some e)) : e.range = r.range := by
  unfold referenceEdit at h
  split at h
  · cases h
  · obtain ⟨dir, -, e⟩ := Except.map_eq_ok.mp h
    cases e
    rfl

/-- An edit that keeps a reference of a file at `final` on its target: from there, the text that is
put in leads to where the packaged artifact goes that the reference is to. -/
structure Follows (p : Planner) (packages : List Package) (final : Path) (r : Reference)
    (e : TextEdit) : Prop where
  range : e.range = r.range
  explicit : Path.isExplicit e.replacement = true
  leads : ∃ dir target, final.parent = some dir ∧ r.target = some target ∧
    ∃ package ∈ packages, ∃ b ∈ package.artifacts, b.path.components = target.components ∧
      (dir.join ⟨e.replacement⟩).normalize = (p.finalPath package b).normalize

theorem follows_of_referenceEdit (output : p.outputRoot.isAbsolute = true)
    (final : p.finalPaths packages = .ok paths) (hp : package ∈ packages)
    (ha : a ∈ package.artifacts) {e : TextEdit}
    (h : referenceEdit paths a.path r = .ok (some e)) :
    Follows p packages (p.finalPath package a) r e := by
  have range := range_of_referenceEdit h
  unfold referenceEdit at h
  split at h
  · cases h
  · rename_i goal led
    obtain ⟨dir, hd, made⟩ := Except.map_eq_ok.mp h
    have text : e.replacement = (dir.relative goal).specifier := by rw [← Option.some.inj made]
    obtain ⟨target, ht, found⟩ := Option.bind_eq_some_iff.mp led
    obtain ⟨package', hp', b, hb, same, there⟩ := (get?_finalPaths final).mp found
    have here : paths.get? a.path = some (p.finalPath package a) :=
      (get?_finalPaths final).mpr ⟨package, hp, a, ha, rfl, rfl⟩
    have parent : (p.finalPath package a).parent = some dir := by
      unfold finalDirectory at hd
      rw [here, Option.bind_some] at hd
      split at hd
      · rename_i found
        cases hd
        exact found
      · cases hd
    refine ⟨range, by rw [text, Path.isExplicit_specifier], dir, target, parent, ht, package', hp',
      b, hb, same, ?_⟩
    have absolute := isAbsolute_finalDirectory output final hd
    have absolute' := isAbsolute_of_get? output final found
    rw [there, Path.normalize_eq_iff (Path.isAbsolute_join absolute _) absolute', text,
      Path.place_join_specifier absolute absolute']

/-! ## The order of edits -/

theorem pairwise_inOrder (edits : List TextEdit) :
    (inOrder edits).Pairwise fun e f => e.range.notAfter f.range = true := by
  refine List.pairwise_mergeSort (fun a b c => ?_) (fun a b => ?_) edits
  · simp only [ByteRange.notAfter, Bool.or_eq_true, Bool.and_eq_true, decide_eq_true_eq, beq_iff_eq]
    omega
  · simp only [ByteRange.notAfter, Bool.or_eq_true, Bool.and_eq_true, decide_eq_true_eq, beq_iff_eq]
    omega

/-- Of edits in order no two overlap if no two neighbours do. -/
theorem before_of_firstOverlap {edits : List TextEdit}
    (forward : ∀ e ∈ edits, e.range.start ≤ e.range.stop)
    (sorted : edits.Pairwise fun e f => e.range.notAfter f.range = true)
    (apart : firstOverlap edits = none) : edits.Pairwise fun e f => e.range.Before f.range := by
  induction edits with
  | nil => exact .nil
  | cons e rest ih =>
    cases rest with
    | nil => simp
    | cons f rest =>
      obtain ⟨least, sorted⟩ := List.pairwise_cons.mp sorted
      rw [firstOverlap] at apart
      split at apart
      · cases apart
      · rename_i clear
        have later := ih (fun g hg => forward g (List.mem_cons_of_mem e hg)) sorted apart
        have first : e.range.Before f.range := by
          have le := least f List.mem_cons_self
          have he := forward e List.mem_cons_self
          have hf := forward f (List.mem_cons_of_mem e List.mem_cons_self)
          rw [Bool.not_eq_true, ByteRange.overlaps_eq_false_iff he hf] at clear
          simp only [ByteRange.notAfter, Bool.or_eq_true, Bool.and_eq_true, decide_eq_true_eq,
            beq_iff_eq] at le
          unfold ByteRange.Before at clear ⊢
          omega
        refine List.pairwise_cons.mpr ⟨fun g hg => ?_, later⟩
        rcases List.mem_cons.mp hg with rfl | hg
        · exact first
        · -- what comes after the second range comes after the first one
          have second := (List.pairwise_cons.mp later).1 g hg
          unfold ByteRange.Before at first second ⊢
          omega

/-! ## The plan -/

/-- A packaged artifact has no change of references or one, whose edits are one for each reference
to a packaged artifact. Each edit leads to where its target goes, and if all ranges of references end
where they start or later, each edit stands before the next. -/
theorem follows_of_plan (output : p.outputRoot.isAbsolute = true)
    (planned : p.plan packages = .ok changes) (hp : package ∈ packages)
    (ha : a ∈ package.artifacts) :
    (changes.changes.filterMap (editsIn a.path) =
      if changes.editsOf a.path = [] then [] else [changes.editsOf a.path]) ∧
    (∃ followed : List Reference, followed.Perm (a.references.filter (·.isAssigned packages)) ∧
      List.Forall₂ (Follows p packages (p.finalPath package a)) followed (changes.editsOf a.path)) ∧
    ((∀ r ∈ a.references, r.range.start ≤ r.range.stop) →
      (changes.editsOf a.path).Pairwise fun e f => e.range.Before f.range) := by
  have packaged : a ∈ packages.flatMap (·.artifacts) := List.mem_flatMap.mpr ⟨package, hp, ha⟩
  obtain ⟨paths, final, each, apart, alone⟩ := editsIn_of_plan planned packaged
  have planned' : changes.editsOf a.path =
      inOrder (a.references.filterMap (followEdit paths a.path)) := by
    rw [editsOf_eq_flatten, alone]
    split
    · rename_i empty
      simp [empty]
    · simp
  have one : List.Forall₂ (Follows p packages (p.finalPath package a))
      (a.references.filter (·.isAssigned packages))
      (a.references.filterMap (followEdit paths a.path)) := by
    refine forall₂_filterMap (fun r hr => referenceEdit_isSome_iff final (each r hr)) ?_
    intro r hr e he
    exact follows_of_referenceEdit output final hp ha (he ▸ each r hr)
  refine ⟨by rw [alone, planned'], ?_, fun forward => ?_⟩
  · have sorted : (a.references.filterMap (followEdit paths a.path)).Perm (changes.editsOf a.path) := by
      rw [planned']
      exact (List.mergeSort_perm _ _).symm
    have both : Relation.Comp (List.Forall₂ (Follows p packages (p.finalPath package a))) List.Perm
        (a.references.filter (·.isAssigned packages)) (changes.editsOf a.path) := ⟨_, one, sorted⟩
    rw [List.forall₂_comp_perm_eq_perm_comp_forall₂] at both
    obtain ⟨followed, perm, all⟩ := both
    exact ⟨followed, perm.symm, all⟩
  · rw [planned']
    refine before_of_firstOverlap (fun e he => ?_) (pairwise_inOrder _) apart
    obtain ⟨r, hr, made⟩ := List.mem_filterMap.mp ((List.mergeSort_perm _ _).mem_iff.mp he)
    rw [range_of_referenceEdit (made ▸ each r hr)]
    exact forward r hr

end

/-- A file that refers to itself does so at its destination. -/
theorem follows_of_plan_self :
    let p : Planner := ⟨⟨"/d"⟩, ⟨"/p"⟩, "package.json"⟩
    let a : Artifact := ⟨⟨"/d/u.js"⟩, "import './u.js'",
      [⟨"./u.js", ⟨8, 14⟩, some ⟨"/d/u.js"⟩, false⟩], false⟩
    let packages := Partition.packages ⟨⟨"/d"⟩, ".js"⟩ [.file ⟨"u.js"⟩] [a]
    ∃ changes, ∃ package ∈ packages, p.plan packages = .ok changes ∧ a ∈ package.artifacts ∧
      (changes.editsOf a.path).length = 1 ∧
      ∃ followed : List Reference, followed.Perm (a.references.filter (·.isAssigned packages)) ∧
        List.Forall₂ (Follows p packages (p.finalPath package a)) followed (changes.editsOf a.path) := by
  intro p a packages
  have planned := Except.eq_ok_of_isSome (x := p.plan packages) (by decide +kernel) ⟨[]⟩
  have member : a ∈ (Partition.ofFile ⟨⟨"/d"⟩, ".js"⟩ ⟨"u.js"⟩ [a]).artifacts :=
    List.mem_filter.mpr ⟨List.mem_cons_self, by decide +kernel⟩
  refine ⟨_, _, List.mem_cons_self, planned, member, by decide +kernel, ?_⟩
  exact (follows_of_plan (by decide +kernel) planned List.mem_cons_self member).2.1

end Planner
end Apportion
