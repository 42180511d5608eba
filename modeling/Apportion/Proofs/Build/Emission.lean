import Apportion.Proofs.Build.EmittedTree
import Apportion.Proofs.Plan.Targets
import Apportion.Proofs.Resolve

/-!
What is emitted. The report and the tree it lies in tell the artifacts of a build, with their texts and
with where their references lead (`Emitter.tells_of_emit`). In trees that are alike outside of some
directories they tell the same, up to targets below these directories, as long as the report and what it
lists lie outside (`Emitter.emit_of_alike`).
-/
namespace Apportion
open Memory FileTree

/-- Whether a path leads below none of some directories. -/
def Path.outside (roots : List Key) (p : Path) : Bool := !inside roots p.place

/-- Paths are told apart by their components here. -/
theorem Path.outside_of_components {roots : List Key} {p q : Path}
    (h : ∀ root ∈ roots, ¬ root <+: p.place) (same : p.components = q.components) :
    q.outside roots = true := by
  have place : q.place = p.place := by rw [Path.place_eq, Path.place_eq, same]
  rw [outside, Bool.not_eq_true', Bool.eq_false_iff, place]
  intro within
  obtain ⟨root, hr, below, -⟩ := inside_iff.mp within
  exact h root hr below

theorem Memory.readAt_eq_ok_iff {tree : FileTree String} {path : Path} {text : String} :
    readAt tree path = .ok text ↔ tree.file? path.place = some text := by
  unfold readAt FileTree.file?
  rcases tree.get? path.place with - | (- | content) <;> simp

namespace Emitter
variable {e : Emitter} {tree : FileTree String}

/-! ## References -/

theorem target_eq (artifact : Path) (specifier : String) (s : Memory) :
    (e.target (m := StateM Memory) artifact specifier s).1 = (e.resolver.resolve (m := StateM Memory)
      (artifact.parent.getD e.emitRoot) specifier s).1.file? := by
  simp only [target, run_bind]
  cases (e.resolver.resolve (m := StateM Memory) (artifact.parent.getD e.emitRoot) specifier s).1 <;>
    rfl

/-- A reference leads where the report says, or else where the resolver finds it. -/
theorem reference_eq (artifact : Path) (r : ReportedReference) (s : Memory) :
    (e.reference (m := StateM Memory) artifact r s).1 =
      ⟨r.specifier, r.range,
        match r.target with
        | some target => some (e.absolute target)
        | none =>
          if r.builtin.getD (Builtin.isBuiltin e.builtinMark r.specifier) then none
          else (e.target (m := StateM Memory) artifact r.specifier s).1,
        r.builtin.getD (Builtin.isBuiltin e.builtinMark r.specifier)⟩ := by
  unfold reference
  cases r.target with
  | some target => rfl
  | none =>
    by_cases builtin : r.builtin.getD (Builtin.isBuiltin e.builtinMark r.specifier) = true
    · simp only [builtin, ↓reduceIte, run_bind, run_pure]
    · rw [Bool.not_eq_true] at builtin
      simp only [builtin, Bool.false_eq_true, ↓reduceIte, run_bind, run_pure]

theorem references_ofTree (tree : FileTree String) (path : Path) (rs : List ReportedReference) :
    (e.references (m := StateM Memory) path rs (.ofTree tree)).1 =
      rs.map fun r => (e.reference (m := StateM Memory) path r (.ofTree tree)).1 := by
  induction rs with
  | nil => rfl
  | cons r rest ih =>
    simp only [references, run_bind, (e.steady_reference path r).run_ofTree tree, run_pure,
      List.map_cons, ih]

/-! ## Artifacts -/

/-- The artifact for a reported one, with its text. -/
def artifactOf (e : Emitter) (tree : FileTree String) (listed : List Path) (r : ReportedArtifact)
    (text : String) : Artifact :=
  ⟨e.absolute r.path, text, r.references.map fun x =>
    (e.reference (m := StateM Memory) (e.absolute r.path) x (.ofTree tree)).1,
    listed.contains (e.absolute r.path).mapPath⟩

/-- The first artifact is read, and then the others. -/
theorem artifacts_cons (listed : List Path) (first : ReportedArtifact) (rest : List ReportedArtifact) :
    (e.artifacts (m := StateM Memory) listed (first :: rest) (.ofTree tree)).1 =
      (readAt tree (e.absolute first.path)).mapError .fs >>= fun text =>
        (e.artifacts (m := StateM Memory) listed rest (.ofTree tree)).1.map
          (e.artifactOf tree listed first text :: ·) := by
  have read : Workspace.read (m := StateM Memory) (e.absolute first.path) (.ofTree tree) =
    (readAt tree (e.absolute first.path), .ofTree tree) := rfl
  simp only [Emitter.artifacts, run_bind, read]
  cases readAt tree (e.absolute first.path) with
  | error cause => rfl
  | ok text =>
    simp only [run_bind, (e.steady_references _ _).run_ofTree tree, run_pure, references_ofTree]
    rfl

/-- What a report and the tree it lies in tell of an artifact: its text, and where each of its references
leads, by the report or else by the resolver. -/
def Tells (e : Emitter) (tree : FileTree String) (a : Artifact) : Prop :=
  ∃ text report, tree.file? e.report.place = some text ∧ EmitReport.parse text = .ok report ∧
    ∃ reported ∈ report.artifacts, a.path = e.absolute reported.path ∧
      tree.file? a.path.place = some a.content ∧
      a.references = reported.references.map fun r =>
        (e.reference (m := StateM Memory) a.path r (.ofTree tree)).1

theorem Tells.mem_reported {a : Artifact} (h : e.Tells tree a) : a.path ∈ reported e tree := by
  obtain ⟨text, report, there, parsed, r, hr, absolute, -⟩ := h
  simp only [reported, readAt_eq_ok_iff.mpr there, parsed]
  exact List.mem_map.mpr ⟨r, hr, absolute.symm⟩

theorem of_artifacts {listed : List Path} {reported : List ReportedArtifact}
    {artifacts : List Artifact}
    (h : (e.artifacts (m := StateM Memory) listed reported (.ofTree tree)).1 = .ok artifacts) :
    ∀ a ∈ artifacts, ∃ r ∈ reported, a.path = e.absolute r.path ∧
      tree.file? a.path.place = some a.content ∧
      a.references = r.references.map fun r =>
        (e.reference (m := StateM Memory) a.path r (.ofTree tree)).1 := by
  induction reported generalizing artifacts with
  | nil =>
    cases h
    simp
  | cons first rest ih =>
    rw [artifacts_cons, Except.bind_eq_ok] at h
    obtain ⟨text, there, h⟩ := h
    rw [Except.map_eq_ok] at h
    obtain ⟨later, ok, rfl⟩ := h
    intro a ha
    rcases List.mem_cons.mp ha with rfl | ha
    · refine ⟨first, List.mem_cons_self, ?_⟩
      dsimp only [artifactOf]
      exact ⟨rfl, readAt_eq_ok_iff.mp (Except.mapError_eq_ok.mp there), rfl⟩
    · obtain ⟨r, hr, told⟩ := ih ok a ha
      exact ⟨r, List.mem_cons_of_mem _ hr, told⟩

/-- The artifacts come from a report without diagnostics. -/
theorem emit_eq_ok_iff {artifacts : List Artifact} :
    (e.emit (m := StateM Memory) (.ofTree tree)).1 = .ok artifacts ↔
      ∃ text report, tree.file? e.report.place = some text ∧ EmitReport.parse text = .ok report ∧
        report.diagnostics.isEmpty = true ∧
        (e.artifacts (m := StateM Memory) (report.artifacts.map fun a => e.absolute a.path)
          report.artifacts (.ofTree tree)).1 = .ok artifacts := by
  have read : Workspace.read (m := StateM Memory) e.report (.ofTree tree) =
    (readAt tree e.report, .ofTree tree) := rfl
  simp only [emit, run_bind, read, ← readAt_eq_ok_iff]
  cases readAt tree e.report with
  | error cause => simp [run_pure]
  | ok text =>
    cases parsed : EmitReport.parse text with
    | error fault => simp [parsed, run_pure]
    | ok report =>
      by_cases clean : report.diagnostics.isEmpty = true
      · simp [parsed, List.isEmpty_iff.mp clean]
      · simp [parsed, mt List.isEmpty_iff.mpr clean, run_pure]

theorem tells_of_emit {artifacts : List Artifact}
    (h : (e.emit (m := StateM Memory) (.ofTree tree)).1 = .ok artifacts) :
    ∀ a ∈ artifacts, e.Tells tree a := by
  obtain ⟨text, report, there, parsed, -, all⟩ := emit_eq_ok_iff.mp h
  exact fun a ha => ⟨text, report, there, parsed, of_artifacts all a ha⟩

/-! ## Trees that are alike -/

section
variable {roots : List Key} {t u : FileTree String}
  (proper : ∀ x ∈ e.resolver.extensions, Path.IsExtension x) (deep : ∀ root ∈ roots, root ≠ [])
  (alike : Alike roots t u)
include proper deep alike

theorem target_of_alike (artifact : Path) (specifier : String) :
    (e.target (m := StateM Memory) artifact specifier (.ofTree t)).1.filter
        (Path.outside roots) =
      (e.target (m := StateM Memory) artifact specifier (.ofTree u)).1.filter
        (Path.outside roots) := by
  rw [target_eq, target_eq, Resolver.file?_resolve, Resolver.file?_resolve]
  split
  · rfl
  · exact Resolver.found_of_alike proper deep alike _ specifier

theorem reference_of_alike (artifact : Path) (r : ReportedReference) :
    (e.reference (m := StateM Memory) artifact r (.ofTree t)).1.pruned (Path.outside roots) =
      (e.reference (m := StateM Memory) artifact r (.ofTree u)).1.pruned (Path.outside roots) := by
  rw [reference_eq, reference_eq, Reference.pruned, Reference.pruned]
  cases r.target with
  | some target => rfl
  | none =>
    dsimp only
    split
    · rfl
    · rw [target_of_alike proper deep alike]

theorem artifactOf_of_alike (listed : List Path) (r : ReportedArtifact) (text : String) :
    (e.artifactOf t listed r text).pruned (Path.outside roots) =
      (e.artifactOf u listed r text).pruned (Path.outside roots) := by
  have references : (r.references.map fun x => (e.reference (m := StateM Memory) (e.absolute r.path) x
        (.ofTree t)).1).map (·.pruned (Path.outside roots)) =
      (r.references.map fun x => (e.reference (m := StateM Memory) (e.absolute r.path) x
        (.ofTree u)).1).map (·.pruned (Path.outside roots)) := by
    rw [List.map_map, List.map_map]
    exact List.map_congr_left fun x _ => reference_of_alike proper deep alike _ x
  simp only [artifactOf, Artifact.pruned, references]

theorem artifacts_of_alike {listed : List Path} {reported : List ReportedArtifact}
    {artifacts : List Artifact}
    (outside : ∀ r ∈ reported, ∀ root ∈ roots, ¬ root <+: (e.absolute r.path).place)
    (h : (e.artifacts (m := StateM Memory) listed reported (.ofTree t)).1 = .ok artifacts) :
    ∃ others, (e.artifacts (m := StateM Memory) listed reported (.ofTree u)).1 = .ok others ∧
      others.map (·.pruned (Path.outside roots)) =
        artifacts.map (·.pruned (Path.outside roots)) := by
  induction reported generalizing artifacts with
  | nil =>
    cases h
    exact ⟨[], rfl, rfl⟩
  | cons first rest ih =>
    rw [artifacts_cons, Except.bind_eq_ok] at h
    obtain ⟨text, there, h⟩ := h
    rw [Except.map_eq_ok] at h
    obtain ⟨later, ok, rfl⟩ := h
    obtain ⟨others, ok', same⟩ := ih (fun r hr => outside r (List.mem_cons_of_mem _ hr)) ok
    have there' : readAt u (e.absolute first.path) = .ok text := by
      rw [readAt_eq_ok_iff, ← alike.files _ (outside first List.mem_cons_self)]
      exact readAt_eq_ok_iff.mp (Except.mapError_eq_ok.mp there)
    refine ⟨e.artifactOf u listed first text :: others, ?_, ?_⟩
    · rw [artifacts_cons, Except.bind_eq_ok]
      exact ⟨text, Except.mapError_eq_ok.mpr there', Except.map_eq_ok.mpr ⟨others, ok', rfl⟩⟩
    · rw [List.map_cons, List.map_cons, same, artifactOf_of_alike proper deep alike]

/-- Emission tells the same of trees that are alike, up to targets below the directories. -/
theorem emit_of_alike {artifacts : List Artifact}
    (report : ∀ root ∈ roots, ¬ root <+: e.report.place)
    (outside : ∀ path ∈ reported e t, ∀ root ∈ roots, ¬ root <+: path.place)
    (h : (e.emit (m := StateM Memory) (.ofTree t)).1 = .ok artifacts) :
    ∃ others, (e.emit (m := StateM Memory) (.ofTree u)).1 = .ok others ∧
      others.map (·.pruned (Path.outside roots)) =
        artifacts.map (·.pruned (Path.outside roots)) := by
  obtain ⟨text, listing, there, parsed, clean, all⟩ := emit_eq_ok_iff.mp h
  have listed : reported e t = listing.artifacts.map fun a => e.absolute a.path := by
    simp only [reported, readAt_eq_ok_iff.mpr there, parsed]
  have outside' : ∀ r ∈ listing.artifacts, ∀ root ∈ roots, ¬ root <+: (e.absolute r.path).place :=
    fun r hr => outside _ (listed ▸ List.mem_map_of_mem hr)
  obtain ⟨others, all', same⟩ := artifacts_of_alike proper deep alike outside' all
  exact ⟨others, emit_eq_ok_iff.mpr
    ⟨text, listing, (alike.files _ report).symm.trans there, parsed, clean, all'⟩, same⟩

end

end Emitter
end Apportion
