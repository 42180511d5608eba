import Apportion.Build
import Apportion.Proofs.Discovery
import Apportion.Proofs.Plan.Destinations
import Apportion.Proofs.Workspace.Reading

/-!
Preparing a build only reads. Resolving may ask for manifests that cannot be read, but the file of the
project that a reference leads to is told by the tree (`steady_target`); from there on a failure ends
the build (`brittle_prepare`).
-/
namespace Apportion
open Memory

/-! ## Resolving -/

namespace Resolver
variable {r : Resolver}

theorem steady_firstFile (paths : List Path) : Steady (firstFile (m := StateM Memory) paths) :=
  .of_run fun s => by rw [run_firstFile, run_firstFile, ofTree]

theorem steady_resolveFile (base : Path) : Steady (r.resolveFile (m := StateM Memory) base) :=
  steady_firstFile _

theorem steady_resolveRelative (directory : Path) (specifier : String) :
    Steady (r.resolveRelative (m := StateM Memory) directory specifier) := by
  refine .ite (.pure _) (.bind_steady (steady_resolveFile _) fun found => ?_)
  cases found <;> exact .pure _

theorem steady_firstResolved (bases : List Path) :
    Steady (r.firstResolved (m := StateM Memory) bases) := by
  induction bases with
  | nil => exact .pure _
  | cons base rest ih =>
    refine .bind_steady (steady_resolveFile base) fun found => ?_
    cases found
    · exact ih
    · exact .pure _

theorem reads_packageEntry (directory : Path) :
    Reads (fun _ _ => True) (r.packageEntry (m := StateM Memory) directory) :=
  (brittle_read _).bind_any fun _ => .of_steady (steady_firstResolved _)

theorem reads_findInstalled (name : String) (inner : Option String) (directories : List Path) :
    Reads (fun _ _ => True) (r.findInstalled (m := StateM Memory) name inner directories) := by
  induction directories with
  | nil => exact .pure _
  | cons directory rest ih =>
    refine .bind_steady (steady_isDirectory _) fun present => .ite ?_ ih
    cases inner with
    | none => exact (reads_packageEntry _).bind_any fun found => .ite (.pure _) ih
    | some inner => exact .bind_steady (steady_resolveFile _) fun found => .ite (.pure _) ih

theorem reads_resolveInstalled (directory : Path) (specifier : String) :
    Reads (fun _ _ => True) (r.resolveInstalled (m := StateM Memory) directory specifier) :=
  .ite (.pure _) ((reads_findInstalled _ _ _).bind_any fun _ => .ite (.pure _) (.pure _))

end Resolver

def Resolution.file? : Resolution → Option Path
  | project path => some path
  | _ => none

namespace Resolver
variable {r : Resolver}

theorem file?_resolveInstalled (directory : Path) (specifier : String) (s : Memory) :
    (r.resolveInstalled (m := StateM Memory) directory specifier s).1.file? = none := by
  unfold resolveInstalled
  split
  · rfl
  · simp only [run_bind]
    split <;> rfl

theorem file?_resolveFirst (directory : Path) (specifier : String) (s : Memory) :
    (r.resolveFirst (m := StateM Memory) directory specifier [.installed] s).1.file? = none := by
  simp only [resolveFirst, resolveBy, run_bind]
  split
  · exact file?_resolveInstalled directory specifier s
  · rfl

theorem reads_resolve (directory : Path) (specifier : String) :
    Reads (fun a b => a.file? = b.file?) (r.resolve (m := StateM Memory) directory specifier) := by
  have installed : Reads (fun _ _ => True)
      (r.resolveFirst (m := StateM Memory) directory specifier [.installed]) :=
    (reads_resolveInstalled _ _).bind_any fun _ => .ite (.pure _) (.pure _)
  refine .ite (.pure _) (.bind_steady (steady_resolveRelative _ _) fun found => ?_)
  refine .ite (.pure _) fun s => ⟨(installed s).1, (installed s).2.imp_right fun h => ⟨h.1, ?_⟩⟩
  rw [file?_resolveFirst, file?_resolveFirst]

end Resolver

/-! ## Collecting artifacts -/

namespace Emitter
variable {e : Emitter}

theorem steady_target (artifact : Path) (specifier : String) :
    Steady (e.target (m := StateM Memory) artifact specifier) := by
  refine (Resolver.reads_resolve _ _).bind (fun found => ?_) fun a b same s t => .inl ?_
  · cases found <;> exact .pure _
  · cases a <;> cases b <;> first | rfl | cases same <;> rfl

theorem steady_reference (artifact : Path) (reported : ReportedReference) :
    Steady (e.reference (m := StateM Memory) artifact reported) := by
  unfold reference
  cases reported.target with
  | some target => exact .bind_steady (.pure _) fun _ => .pure _
  | none =>
    refine .ite (.bind_steady (.pure _) fun _ => .pure _) ?_
    exact .bind_steady (steady_target _ _) fun _ => .pure _

theorem steady_references (artifact : Path) (reported : List ReportedReference) :
    Steady (e.references (m := StateM Memory) artifact reported) := by
  induction reported with
  | nil => exact .pure _
  | cons r rest ih =>
    exact .bind_steady (steady_reference _ _) fun _ => .bind_steady ih fun _ => .pure _

theorem brittle_artifacts (listed : List Path) (reported : List ReportedArtifact) :
    Brittle (e.artifacts (m := StateM Memory) listed reported) := by
  induction reported with
  | nil => exact .pure _
  | cons a rest ih =>
    refine (brittle_read _).bind_brittle (fun text => ?_) fun cause => ⟨_, rfl⟩
    refine .bind_steady (steady_references _ _) fun references => ih.bind (fun _ => .pure _) ?_
    rintro later - ⟨cause, rfl⟩ s t
    exact .inr ⟨cause, rfl⟩

theorem brittle_emit : Brittle (e.emit (m := StateM Memory)) := by
  refine (brittle_read _).bind_brittle (fun text => ?_) fun cause => ⟨_, rfl⟩
  cases parsed : EmitReport.parse text with
  | error fault =>
    simp only [parsed]
    exact .pure _
  | ok report =>
    simp only [parsed]
    exact .ite (brittle_artifacts _ _) (.pure _)

/-- The artifacts that are read are those of the report, in its order. -/
theorem paths_of_artifacts {listed : List Path} {reported : List ReportedArtifact} {s : Memory}
    {artifacts : List Artifact}
    (h : (e.artifacts (m := StateM Memory) listed reported s).1 = .ok artifacts) :
    artifacts.map (·.path) = reported.map fun a => e.absolute a.path := by
  induction reported generalizing s artifacts with
  | nil =>
    cases h
    rfl
  | cons a rest ih =>
    simp only [Emitter.artifacts, run_bind] at h
    cases read : (Workspace.read (m := StateM Memory) (e.absolute a.path) s).1 with
    | error cause =>
      rw [read] at h
      cases h
    | ok text =>
      simp only [read, run_bind, run_pure] at h
      obtain ⟨later, ok, rfl⟩ := Except.map_eq_ok.mp h
      rw [List.map_cons, List.map_cons, ih ok]

theorem paths_of_emit {s : Memory} {artifacts : List Artifact}
    (h : (e.emit (m := StateM Memory) s).1 = .ok artifacts) :
    ∃ reported : List ReportedArtifact,
      artifacts.map (·.path) = reported.map fun a => e.absolute a.path := by
  simp only [emit, run_bind] at h
  cases read : (Workspace.read (m := StateM Memory) e.report s).1 with
  | error cause =>
    rw [read] at h
    cases h
  | ok text =>
    rw [read] at h
    cases parsed : EmitReport.parse text with
    | error fault =>
      simp only [parsed] at h
      cases h
    | ok report =>
      simp only [parsed] at h
      split at h
      · exact ⟨report.artifacts, paths_of_artifacts h⟩
      · cases h

theorem exists_absolute_of_emit {s : Memory} {artifacts : List Artifact}
    (h : (e.emit (m := StateM Memory) s).1 = .ok artifacts) :
    ∀ a ∈ artifacts, ∃ path, a.path = e.absolute path := by
  obtain ⟨reported, paths⟩ := paths_of_emit h
  intro a ha
  have mem : a.path ∈ reported.map fun r => e.absolute r.path := paths ▸ List.mem_map_of_mem ha
  obtain ⟨r, -, absolute⟩ := List.mem_map.mp mem
  exact ⟨r.path, absolute.symm⟩

theorem normal_of_emit {s : Memory} {artifacts : List Artifact}
    (h : (e.emit (m := StateM Memory) s).1 = .ok artifacts) :
    ∀ a ∈ artifacts, Path.NormalForm a.path.components := by
  intro a ha
  obtain ⟨path, absolute⟩ := exists_absolute_of_emit h a ha
  rw [absolute, Emitter.absolute, Path.components_normalize]
  exact Path.normalForm_normalComponents _

end Emitter

/-! ## Discovering modules -/

namespace Discovery
variable {d : Discovery}

theorem steady_classify (root : Path) (paths : List Path) :
    Steady (d.classify (m := StateM Memory) root paths) :=
  .of_run fun s => by rw [run_classify, run_classify, ofTree]

theorem brittle_discover (root : Path) : Brittle (d.discover (m := StateM Memory) root) := by
  refine .bind_steady (steady_isDirectory _) fun present => .ite (.pure _) ?_
  refine (brittle_list _).bind_brittle (fun paths => ?_) fun cause => ⟨_, rfl⟩
  exact .bind_steady (steady_classify _ _) fun _ => .pure _

end Discovery

/-! ## Preparing -/

namespace Build
variable {e : Emitter} {d : Discovery} {o : BuildOptions}

theorem brittle_prepare : Brittle (prepare (m := StateM Memory) e d o).run :=
  e.brittle_emit.bind_except fun _ => (d.brittle_discover _).bind_except fun _ =>
    Reads.bind_except (Reads.pure _) fun _ => .pure _

/-- Without failure rules, what is prepared is told by the tree. -/
theorem prepare_eq_ok_iff {t : FileTree String} {artifacts : List Artifact} {result : BuildResult} :
    ((prepare (m := StateM Memory) e d o).run (.ofTree t)).1 = .ok (artifacts, result) ↔
      ∃ modules, (e.emit (m := StateM Memory) (.ofTree t)).1 = .ok artifacts ∧
        (d.discover (m := StateM Memory) o.emitRoot (.ofTree t)).1 = .ok modules ∧
        planned o modules artifacts = .ok result := by
  simp only [prepare, ExceptT.run_bind, ExceptT.run_mk, run_bind]
  cases (e.emit (m := StateM Memory) (.ofTree t)).1 with
  | error cause => simp [run_pure]
  | ok all =>
    simp only [run_bind, e.brittle_emit.run_ofTree t]
    cases (d.discover (m := StateM Memory) o.emitRoot (.ofTree t)).1 with
    | error cause => simp [run_pure]
    | ok modules =>
      simp only [run_bind, run_pure]
      cases plan : planned o modules all with
      | error cause =>
        simp only [run_pure, reduceCtorEq, Except.ok.injEq, false_iff]
        rintro ⟨modules', rfl, rfl, plan'⟩
        cases plan.symm.trans plan'
      | ok made =>
        simp only [run_pure, Except.ok.injEq, ExceptT.run_pure]
        constructor
        · intro h
          cases h
          exact ⟨modules, rfl, rfl, plan⟩
        · rintro ⟨modules', rfl, rfl, plan'⟩
          cases plan.symm.trans plan'
          rfl

/-- What is prepared comes from a report and from modules found in the tree. -/
theorem prepare_eq_ok {s : Memory} {artifacts : List Artifact} {result : BuildResult}
    (h : ((prepare (m := StateM Memory) e d o).run s).1 = .ok (artifacts, result)) :
    ∃ modules, (e.emit (m := StateM Memory) (.ofTree s.tree)).1 = .ok artifacts ∧
      (d.discover (m := StateM Memory) o.emitRoot (.ofTree s.tree)).1 = .ok modules ∧
      planned o modules artifacts = .ok result :=
  prepare_eq_ok_iff.mp (brittle_prepare.ok_ofTree h)

theorem planned_eq_ok {modules : List EmittedModule} {artifacts : List Artifact}
    {result : BuildResult} (h : planned o modules artifacts = .ok result) :
    o.planner.plan (o.partition.packages modules artifacts) = .ok result.changes ∧
    result.packages = (o.partition.packages modules artifacts).map (summarize o.planner) := by
  obtain ⟨changes, made, h⟩ := Except.bind_eq_ok.mp h
  cases h
  exact ⟨Except.mapError_eq_ok.mp made, rfl⟩

/-- What a build has planned writes only in the directories it makes, which are those of its
packages. -/
theorem contained_of_prepare {s : Memory} {artifacts : List Artifact} {result : BuildResult}
    (tree : s.tree.WellFormed) (plain : IsName o.manifestName)
    (h : ((prepare (m := StateM Memory) e d o).run s).1 = .ok (artifacts, result)) :
    result.changes.Contained ∧ result.packages.map (·.directory) = result.changes.directories := by
  obtain ⟨modules, emitted, found, plan⟩ := prepare_eq_ok h
  obtain ⟨made, packages⟩ := planned_eq_ok plan
  have shallow := Discovery.shallow_of_discover (s := .ofTree s.tree) tree found
  refine ⟨Planner.contained_of_plan made plain fun package hp a ha => ?_, ?_⟩
  · exact Planner.member_of_shallow shallow (Emitter.normal_of_emit emitted) hp ha
  · obtain ⟨-, directories, -, -⟩ := Planner.plan_eq_ok made
    rw [directories, packages, List.map_map]
    rfl

end Build
end Apportion
