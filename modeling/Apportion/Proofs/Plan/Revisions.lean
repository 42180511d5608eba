import Apportion.Proofs.Plan.Changes

/-!
What a plan revises. Packaged artifacts have different paths (`distinct_of_finalPaths`), so that the
changes planned for one of them are those of its own revision (`filterMap_of_plan`): its edits are
those of its references, in order and apart (`editsOf_of_plan`), and a position map gets its sources
as seen from its destination, unless they are what they were (`sourcesOf_of_plan`).
-/
namespace Apportion

theorem List.flatMap_eq_flatten_filterMap {α β : Type} {f : α → List β} {g : α → Option (List β)}
    (h : ∀ a, f a = (g a).getD []) (l : List α) : l.flatMap f = (l.filterMap g).flatten := by
  induction l with
  | nil => rfl
  | cons a l ih =>
    rw [List.flatMap_cons, List.filterMap_cons, ih, h]
    cases g a <;> rfl

namespace Planner

variable {p : Planner} {packages : List Package} {changes : ChangeSet} {paths : PathMap}
  {a : Artifact}

theorem distinct_of_finalPaths (h : p.finalPaths packages = .ok paths) :
    (packages.flatMap (·.artifacts)).Pairwise fun a b => a.path.components ≠ b.path.components := by
  obtain ⟨apart, -⟩ := PathMap.of_ofPairs (Except.mapError_eq_ok.mp h)
  have sources : (packages.flatMap fun package =>
      package.artifacts.map fun a => (a.path, p.finalPath package a)).map (·.1.components) =
      (packages.flatMap (·.artifacts)).map (·.path.components) := by
    simp [List.map_flatMap, Function.comp_def]
  have different : ((packages.flatMap fun package =>
      package.artifacts.map fun a => (a.path, p.finalPath package a)).map (·.1.components)).Pairwise
        (· ≠ ·) := List.pairwise_map.mpr (apart.imp fun h => h.1)
  rw [sources] at different
  exact List.pairwise_map.mp different

theorem revised_layout (p : Planner) (packages : List Package) :
    ∀ c ∈ packages.flatMap p.layout, revised c = none := by
  intro c hc
  obtain ⟨package, -, hc⟩ := List.mem_flatMap.mp hc
  simp only [layout, List.mem_cons, List.not_mem_nil, or_false] at hc
  rcases hc with rfl | rfl <;> rfl

/-- What is told by the changes to one packaged artifact is told by its own revision. -/
theorem filterMap_of_plan {α : Type} (h : p.plan packages = .ok changes)
    (ha : a ∈ packages.flatMap (·.artifacts)) {g : Change → Option α}
    (own : ∀ c, g c ≠ none → ∃ q, revised c = some q ∧ q.components = a.path.components) :
    ∃ paths cs, p.finalPaths packages = .ok paths ∧ revisions paths a = .ok cs ∧
      changes.changes.filterMap g = cs.filterMap g := by
  obtain ⟨-, paths, revisedAll, hp, hr, rfl⟩ := plan_parts h
  have distinct := distinct_of_finalPaths hp
  have other : ∀ {cs : List Change}, (∀ c ∈ cs, ∀ q, revised c = some q →
      q.components ≠ a.path.components) → cs.filterMap g = [] := by
    intro cs all
    refine List.filterMap_eq_nil_iff.mpr fun c hc => Classical.byContradiction fun hg => ?_
    obtain ⟨q, hq, same⟩ := own c hg
    exact all c hc q hq same
  obtain ⟨front, back, e⟩ := List.append_of_mem ha
  rw [e, List.mapM_append] at hr
  obtain ⟨before, hb, hr⟩ := Except.bind_eq_ok.mp hr
  obtain ⟨after, ha', hr⟩ := Except.bind_eq_ok.mp hr
  cases hr
  rw [List.mapM_cons] at ha'
  obtain ⟨cs, hcs, ha'⟩ := Except.bind_eq_ok.mp ha'
  obtain ⟨rest, hrest, ha'⟩ := Except.bind_eq_ok.mp ha'
  cases ha'
  rw [e, List.pairwise_append] at distinct
  -- the revisions of the artifacts before and after this one are about other paths
  have others : ∀ {as : List Artifact} {all : List (List Change)}, as.mapM (revisions paths) = .ok all →
      (∀ b ∈ as, b.path.components ≠ a.path.components) → all.flatten.filterMap g = [] := by
    intro as all each different
    refine other fun c hc q hq => ?_
    obtain ⟨cs, hcs, hc⟩ := List.mem_flatten.mp hc
    obtain ⟨b, hb, hb'⟩ := Except.exists_of_mem_mapM each cs hcs
    cases (revised_of_revisions hb' c hc).symm.trans hq
    exact different b hb
  have phase : ∀ c, g c ≠ none → c.phase = .revise := by
    intro c hc
    obtain ⟨q, hq, -⟩ := own c hc
    cases c <;> first | rfl | cases hq
  have layout : (packages.flatMap p.layout).filterMap g = [] := other fun c hc q hq => by
    rw [revised_layout p packages c hc] at hq
    cases hq
  have moves : (paths.entries.map fun e => Change.move e.1 e.2).filterMap g = [] :=
    other fun c hc q hq => by
      obtain ⟨e, -, rfl⟩ := List.mem_map.mp hc
      cases hq
  refine ⟨paths, cs, hp, hcs, ?_⟩
  rw [ChangeSet.filterMap_ofList phase, List.filterMap_append, List.filterMap_append, layout, moves,
    List.flatten_append, List.flatten_cons, List.filterMap_append, List.filterMap_append,
    others hb fun b hb => distinct.2.2 b hb a List.mem_cons_self,
    others hrest fun b hb => ((List.pairwise_cons.mp distinct.2.1).1 b hb).symm]
  simp

def editsIn (path : Path) : Change → Option (List TextEdit)
  | .editReferences artifact edits => if artifact == path then some edits else none
  | _ => none

theorem editsOf_eq_flatten (changes : ChangeSet) (path : Path) :
    changes.editsOf path = (changes.changes.filterMap (editsIn path)).flatten := by
  refine List.flatMap_eq_flatten_filterMap (fun c => ?_) _
  cases c with
  | editReferences artifact edits =>
    by_cases same : (artifact == path) = true <;> simp [editsIn, same]
  | _ => rfl

def followEdit (paths : PathMap) (path : Path) (r : Reference) : Option TextEdit :=
  (referenceEdit paths path r).toOption.getD none

/-- A packaged artifact has one change of its references, if any of them has an edit. -/
theorem editsIn_of_plan (h : p.plan packages = .ok changes)
    (ha : a ∈ packages.flatMap (·.artifacts)) : ∃ paths, p.finalPaths packages = .ok paths ∧
      (∀ r ∈ a.references, referenceEdit paths a.path r = .ok (followEdit paths a.path r)) ∧
      firstOverlap (inOrder (a.references.filterMap (followEdit paths a.path))) = none ∧
      changes.changes.filterMap (editsIn a.path) =
        if inOrder (a.references.filterMap (followEdit paths a.path)) = [] then []
        else [inOrder (a.references.filterMap (followEdit paths a.path))] := by
  have own : ∀ c, editsIn a.path c ≠ none →
      ∃ q, revised c = some q ∧ q.components = a.path.components := by
    intro c hc
    cases c with
    | editReferences artifact edits =>
      by_cases same : (artifact == a.path) = true
      · exact ⟨artifact, rfl, Path.beq_iff.mp same⟩
      · exact absurd (if_neg same) hc
    | _ => exact absurd rfl hc
  obtain ⟨paths, cs, hp, hcs, e⟩ := filterMap_of_plan h ha own
  obtain ⟨references, sources, hr, hs, rfl⟩ := revisions_eq_ok hcs
  obtain ⟨found, all, apart, rfl⟩ := referenceChange_eq_ok.mp hr
  have each : ∀ r ∈ a.references, referenceEdit paths a.path r = .ok (followEdit paths a.path r) := by
    intro r hr
    obtain ⟨i, hi⟩ := List.mem_iff_getElem?.mp hr
    obtain ⟨edit, -, made⟩ := Except.getElem?_of_mapM all hi
    simp [followEdit, made, Except.toOption]
  have listed : found.filterMap id = a.references.filterMap (followEdit paths a.path) := by
    rw [show found = a.references.map (followEdit paths a.path) from Except.eq_map_of_mapM all none,
      List.filterMap_map]
    rfl
  rw [listed] at apart e
  refine ⟨paths, hp, each, apart, ?_⟩
  have none' : sources.toList.filterMap (editsIn a.path) = [] := by
    refine List.filterMap_eq_nil_iff.mpr fun c hc => ?_
    rw [Option.mem_toList.mp hc] at hs
    split at hs
    · obtain ⟨map, dir, -, -, e⟩ := sourceChange_eq_ok.mp hs
      split at e <;> cases e
      rfl
    · cases hs
  rw [e, List.filterMap_append, none', List.append_nil]
  by_cases empty : inOrder (a.references.filterMap (followEdit paths a.path)) = []
  · simp [empty]
  · simp [empty, editsIn, Path.beq_iff]

theorem editsOf_of_plan (h : p.plan packages = .ok changes)
    (ha : a ∈ packages.flatMap (·.artifacts)) : ∃ paths, p.finalPaths packages = .ok paths ∧
      (∀ r ∈ a.references, referenceEdit paths a.path r = .ok (followEdit paths a.path r)) ∧
      firstOverlap (inOrder (a.references.filterMap (followEdit paths a.path))) = none ∧
      changes.editsOf a.path = inOrder (a.references.filterMap (followEdit paths a.path)) := by
  obtain ⟨paths, hp, each, apart, planned⟩ := editsIn_of_plan h ha
  refine ⟨paths, hp, each, apart, ?_⟩
  rw [editsOf_eq_flatten, planned]
  split
  · rename_i empty
    simp [empty]
  · simp

def sourcesIn (path : Path) : Change → Option (List (Option String))
  | .setSources map sources => if map == path then some sources else none
  | _ => none

theorem sourcesOf_of_revision (h : p.plan packages = .ok changes)
    (ha : a ∈ packages.flatMap (·.artifacts)) : ∃ paths sources, p.finalPaths packages = .ok paths ∧
      (if a.isMap then sourceChange paths a else .ok none) = .ok sources ∧
      changes.sourcesOf a.path = (sources.toList.filterMap (sourcesIn a.path)).getLast? := by
  have own : ∀ c, sourcesIn a.path c ≠ none →
      ∃ q, revised c = some q ∧ q.components = a.path.components := by
    intro c hc
    cases c with
    | setSources map sources =>
      by_cases same : (map == a.path) = true
      · exact ⟨map, rfl, Path.beq_iff.mp same⟩
      · exact absurd (if_neg same) hc
    | _ => exact absurd rfl hc
  obtain ⟨paths, cs, hp, hcs, e⟩ := filterMap_of_plan h ha own
  obtain ⟨references, sources, hr, hs, rfl⟩ := revisions_eq_ok hcs
  refine ⟨paths, sources, hp, hs, ?_⟩
  have none' : references.toList.filterMap (sourcesIn a.path) = [] := by
    refine List.filterMap_eq_nil_iff.mpr fun c hc => ?_
    rw [Option.mem_toList.mp hc] at hr
    obtain ⟨found, -, -, e⟩ := referenceChange_eq_ok.mp hr
    split at e <;> cases e
    rfl
  have last : changes.sourcesOf a.path =
      (changes.changes.filterMap (sourcesIn a.path)).getLast? := rfl
  rw [last, e, List.filterMap_append, none', List.nil_append]

theorem sourcesOf_of_plan (h : p.plan packages = .ok changes)
    (ha : a ∈ packages.flatMap (·.artifacts)) (map : a.isMap = true) :
    ∃ paths m dir, p.finalPaths packages = .ok paths ∧ PositionMap.parse a.content = .ok m ∧
      finalDirectory paths a.path = .ok dir ∧
      changes.sourcesOf a.path = if movedSources paths a.path dir m = m.sources then none
        else some (movedSources paths a.path dir m) := by
  obtain ⟨paths, sources, hp, hs, e⟩ := sourcesOf_of_revision h ha
  rw [if_pos map] at hs
  obtain ⟨m, dir, parsed, destination, rfl⟩ := sourceChange_eq_ok.mp hs
  refine ⟨paths, m, dir, hp, parsed, destination, ?_⟩
  rw [e]
  split <;> simp [sourcesIn, Path.beq_iff]

theorem sourcesOf_of_text (h : p.plan packages = .ok changes)
    (ha : a ∈ packages.flatMap (·.artifacts)) (text : a.isMap = false) :
    changes.sourcesOf a.path = none := by
  obtain ⟨paths, sources, -, hs, e⟩ := sourcesOf_of_revision h ha
  rw [if_neg (by simp [text])] at hs
  cases hs
  exact e

end Planner
end Apportion
