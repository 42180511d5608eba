import Apportion.Plan
import Apportion.Proofs.PathMap

/-!
What a plan holds. Changes are put in the order of their phases, and keep their order within a phase
(`inPhase_ofList`). A plan that is made has passed the check of the roots, and its directories,
manifests and moves are those of the packages and of their path map (`plan_eq_ok`); revisions of
texts add none of them.
-/
namespace Apportion

/-! ## Changes by phase -/

namespace ChangeSet

theorem filterMap_inPhase {α : Type} {f : Change → Option α} {phase : Phase}
    (only : ∀ c, f c ≠ none → c.phase = phase) (changes : List Change) (other : Phase) :
    (inPhase other changes).filterMap f = if other = phase then changes.filterMap f else [] := by
  induction changes with
  | nil => simp [inPhase]
  | cons c cs ih =>
    unfold inPhase at ih ⊢
    by_cases hc : f c = none
    · by_cases ho : c.phase = other
      · simp [ho, hc, ih]
      · simp [ho, hc, ih]
    · have own := only c hc
      by_cases ho : other = phase
      · simp only [ho, ↓reduceIte] at ih
        simp [own, ho, List.filterMap_cons, ih]
      · simp only [ho, ↓reduceIte] at ih
        simp [own, ho, Ne.symm ho, ih]

/-- What is told by changes of one phase only is not touched by putting phases in order. -/
theorem filterMap_ofList {α : Type} {f : Change → Option α} {phase : Phase}
    (only : ∀ c, f c ≠ none → c.phase = phase) (changes : List Change) :
    (ofList changes).changes.filterMap f = changes.filterMap f := by
  simp only [ofList, List.filterMap_append, filterMap_inPhase only]
  cases phase <;> simp

theorem directories_ofList (changes : List Change) : (ofList changes).directories =
    changes.filterMap fun | .createDirectory path => some path | _ => none := by
  have only : ∀ c : Change, (match c with | .createDirectory path => some path | _ => none) ≠ none →
      c.phase = .layout := by
    intro c hc
    cases c <;> simp_all [Change.phase]
  exact filterMap_ofList only changes

theorem manifests_ofList (changes : List Change) : (ofList changes).manifests =
    changes.filterMap fun | .writeManifest path content => some (path, content) | _ => none := by
  have only : ∀ c : Change, (match c with
      | .writeManifest path content => some (path, content) | _ => none) ≠ none →
      c.phase = .layout := by
    intro c hc
    cases c <;> simp_all [Change.phase]
  exact filterMap_ofList only changes

theorem moves_ofList (changes : List Change) : (ofList changes).moves =
    changes.filterMap fun | .move source target => some (source, target) | _ => none := by
  have only : ∀ c : Change, (match c with
      | .move source target => some (source, target) | _ => none) ≠ none → c.phase = .move := by
    intro c hc
    cases c <;> simp_all [Change.phase]
  exact filterMap_ofList only changes

theorem inPhase_inPhase (phase other : Phase) (changes : List Change) :
    inPhase phase (inPhase other changes) = if other = phase then inPhase phase changes else [] := by
  unfold inPhase
  rw [List.filter_filter]
  split
  · rename_i same
    simp [same]
  · rename_i ne
    refine List.filter_eq_nil_iff.mpr fun c _ both => ne ?_
    simp only [Bool.and_eq_true, beq_iff_eq] at both
    rw [← both.1, ← both.2]

/-- Putting changes in the order of their phases is stable. -/
theorem inPhase_ofList (phase : Phase) (changes : List Change) :
    inPhase phase (ofList changes).changes = inPhase phase changes := by
  have parts : inPhase phase (ofList changes).changes =
      inPhase phase (inPhase .layout changes) ++ inPhase phase (inPhase .revise changes) ++
        inPhase phase (inPhase .move changes) := by
    simp only [inPhase, ofList, List.filter_append]
  rw [parts, inPhase_inPhase, inPhase_inPhase, inPhase_inPhase]
  cases phase <;> simp

theorem phase_of_mem_inPhase {phase : Phase} {changes : List Change} {c : Change}
    (h : c ∈ inPhase phase changes) : c.phase = phase := by
  simpa using (List.mem_filter.mp h).2

theorem pairwise_ofList (changes : List Change) :
    (ofList changes).changes.Pairwise fun c d => c.phase.rank ≤ d.phase.rank := by
  have one (phase : Phase) :
      (inPhase phase changes).Pairwise fun c d => c.phase.rank ≤ d.phase.rank := by
    refine List.pairwise_of_forall_mem_list fun c hc d hd => Nat.le_of_eq ?_
    rw [phase_of_mem_inPhase hc, phase_of_mem_inPhase hd]
  refine List.pairwise_append.mpr ⟨List.pairwise_append.mpr ⟨one _, one _, ?_⟩, one _, ?_⟩
  · intro c hc d hd
    rw [phase_of_mem_inPhase hc, phase_of_mem_inPhase hd]
    decide
  · intro c hc d hd
    rw [phase_of_mem_inPhase hd]
    cases c.phase <;> decide

def writes (changes : ChangeSet) : List Path :=
  changes.manifests.map (·.1) ++ changes.moves.map (·.2)

end ChangeSet

namespace Planner

/-! ## Revisions of one artifact -/

/-- The edits of an artifact's references, as they are planned. -/
def inOrder (edits : List TextEdit) : List TextEdit :=
  edits.mergeSort fun e f => e.range.notAfter f.range

def movedSources (paths : PathMap) (path dir : Path) (map : PositionMap) : List (Option String) :=
  map.sources.map fun source => source.map (moveSource paths (sourceBase path map.sourceRoot) dir)

section
variable {paths : PathMap} {a : Artifact}

theorem referenceChange_eq_ok {change : Option Change} :
    referenceChange paths a = .ok change ↔ ∃ found,
      a.references.mapM (referenceEdit paths a.path) = .ok found ∧
      firstOverlap (inOrder (found.filterMap id)) = none ∧
      change = if (inOrder (found.filterMap id)).isEmpty then none
        else some (.editReferences a.path (inOrder (found.filterMap id))) := by
  unfold referenceChange inOrder
  constructor
  · intro h
    obtain ⟨found, each, h⟩ := Except.bind_eq_ok.mp h
    refine ⟨found, each, ?_⟩
    simp only at h
    split at h
    · rename_i none
      cases h
      rw [List.isEmpty_iff.mp none]
      exact ⟨rfl, rfl⟩
    · rename_i some
      split at h
      · cases h
      · rename_i apart
        cases h
        exact ⟨apart, by rw [if_neg some]⟩
  · rintro ⟨found, each, apart, rfl⟩
    refine Except.bind_eq_ok.mpr ⟨found, each, ?_⟩
    simp only [apart]
    split <;> rfl

theorem sourceChange_eq_ok {change : Option Change} :
    sourceChange paths a = .ok change ↔ ∃ map dir,
      PositionMap.parse a.content = .ok map ∧ finalDirectory paths a.path = .ok dir ∧
      change = if movedSources paths a.path dir map = map.sources then none
        else some (.setSources a.path (movedSources paths a.path dir map)) := by
  unfold sourceChange
  constructor
  · intro h
    obtain ⟨map, parsed, h⟩ := Except.bind_eq_ok.mp h
    obtain ⟨dir, destination, h⟩ := Except.bind_eq_ok.mp h
    cases h
    exact ⟨map, dir, Except.mapError_eq_ok.mp parsed, destination, rfl⟩
  · rintro ⟨map, dir, parsed, destination, rfl⟩
    refine Except.bind_eq_ok.mpr ⟨map, Except.mapError_eq_ok.mpr parsed, ?_⟩
    exact Except.bind_eq_ok.mpr ⟨dir, destination, rfl⟩

def revised : Change → Option Path
  | .editReferences artifact _ => some artifact
  | .setSources map _ => some map
  | _ => none

theorem phase_of_revised {c : Change} {path : Path} (h : revised c = some path) :
    c.phase = .revise := by
  cases c <;> first | rfl | cases h

theorem revisions_eq_ok {cs : List Change}
    (h : revisions paths a = .ok cs) : ∃ references sources, referenceChange paths a = .ok references ∧
      (if a.isMap then sourceChange paths a else .ok none) = .ok sources ∧
      cs = references.toList ++ sources.toList := by
  unfold revisions at h
  obtain ⟨references, hr, h⟩ := Except.bind_eq_ok.mp h
  refine ⟨references, ?_⟩
  simp only at h
  split at h
  · rename_i map
    obtain ⟨sources, hs, h⟩ := Except.bind_eq_ok.mp h
    cases h
    exact ⟨sources, hr, by simp [map, hs], rfl⟩
  · rename_i map
    cases h
    exact ⟨none, hr, by simp [map], rfl⟩

theorem revised_of_revisions {cs : List Change} (h : revisions paths a = .ok cs) :
    ∀ c ∈ cs, revised c = some a.path := by
  obtain ⟨references, sources, hr, hs, rfl⟩ := revisions_eq_ok h
  intro c hc
  rcases List.mem_append.mp hc with hc | hc
  · obtain ⟨found, -, -, e⟩ := referenceChange_eq_ok.mp hr
    rw [Option.mem_toList.mp hc] at e
    split at e <;> cases e
    rfl
  · rw [Option.mem_toList.mp hc] at hs
    split at hs
    · obtain ⟨map, dir, -, -, e⟩ := sourceChange_eq_ok.mp hs
      split at e <;> cases e
      rfl
    · cases hs

end

/-! ## Plans -/

theorem filterMap_layout {α : Type} (p : Planner) (f : Change → Option α) (g : Package → α)
    (one : ∀ package, (p.layout package).filterMap f = [g package]) (packages : List Package) :
    (packages.flatMap p.layout).filterMap f = packages.map g := by
  induction packages with
  | nil => rfl
  | cons package rest ih => simp [List.flatMap_cons, List.filterMap_append, one, ih]

theorem plan_parts {p : Planner} {packages : List Package} {changes : ChangeSet}
    (h : p.plan packages = .ok changes) :
    p.checkRoots (p.emitted packages) [] packages = .ok () ∧
    ∃ paths revised, p.finalPaths packages = .ok paths ∧
    (packages.flatMap (·.artifacts)).mapM (revisions paths) = .ok revised ∧
    changes = ChangeSet.ofList (packages.flatMap p.layout ++ revised.flatten ++
      paths.entries.map fun e => .move e.1 e.2) := by
  obtain ⟨⟨⟩, roots, h⟩ := Except.bind_eq_ok.mp h
  obtain ⟨paths, hp, h⟩ := Except.bind_eq_ok.mp h
  obtain ⟨revised, hr, h⟩ := Except.bind_eq_ok.mp h
  cases h
  exact ⟨roots, paths, revised, hp, hr, rfl⟩

/-- A plan that is made: the roots pass their check, and there is a map of the destinations from
which the moves are taken. -/
theorem plan_eq_ok {p : Planner} {packages : List Package} {changes : ChangeSet}
    (h : p.plan packages = .ok changes) :
    p.checkRoots (p.emitted packages) [] packages = .ok () ∧
    changes.directories = packages.map p.packageRoot ∧
    changes.manifests = packages.map (fun package =>
      ((p.packageRoot package).join ⟨p.manifestName⟩, package.manifest.render)) ∧
    ∃ paths, p.finalPaths packages = .ok paths ∧ changes.moves = paths.entries := by
  obtain ⟨roots, paths, revised, hp, hr, rfl⟩ := plan_parts h
  have phase : ∀ c ∈ revised.flatten, c.phase = .revise := by
    intro c hc
    obtain ⟨cs, hcs, hc⟩ := List.mem_flatten.mp hc
    obtain ⟨a, -, ha⟩ := Except.exists_of_mem_mapM hr cs hcs
    exact phase_of_revised (revised_of_revisions ha c hc)
  have none : ∀ {α : Type} (f : Change → Option α), (∀ c, c.phase = .revise → f c = none) →
      revised.flatten.filterMap f = [] := fun f hf =>
    List.filterMap_eq_nil_iff.mpr fun c hc => hf c (phase c hc)
  refine ⟨roots, ?_, ?_, paths, hp, ?_⟩
  · rw [ChangeSet.directories_ofList, List.filterMap_append, List.filterMap_append,
      filterMap_layout p _ p.packageRoot fun _ => rfl, none _ fun c hc => ?_]
    · simp [List.filterMap_map]
    · cases c <;> first | rfl | cases hc
  · rw [ChangeSet.manifests_ofList, List.filterMap_append, List.filterMap_append,
      filterMap_layout p _ _ fun _ => rfl, none _ fun c hc => ?_]
    · simp [List.filterMap_map]
    · cases c <;> first | rfl | cases hc
  · rw [ChangeSet.moves_ofList, List.filterMap_append, List.filterMap_append, none _ fun c hc => ?_]
    · have layout : (packages.flatMap p.layout).filterMap
          (fun | .move source target => some (source, target) | _ => Option.none) = [] := by
        rw [List.filterMap_eq_nil_iff]
        intro c hc
        obtain ⟨package, -, hc⟩ := List.mem_flatMap.mp hc
        simp only [layout, List.mem_cons, List.not_mem_nil, or_false] at hc
        rcases hc with rfl | rfl <;> rfl
      rw [layout, List.filterMap_map, List.nil_append]
      exact List.filterMap_some
    · cases c <;> first | rfl | cases hc

end Planner
end Apportion
