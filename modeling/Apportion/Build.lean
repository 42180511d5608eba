import Apportion.Apply
import Apportion.Discovery
import Apportion.EmitReport
import Apportion.IgnoreList

/-!
The whole build: the emitted artifacts are collected, the modules among them found, packages formed
and planned, and the plan is carried out. A dry run ends with the plan. If the ignore list cannot be
written in the end, the packages are removed again.
-/
namespace Apportion

structure BuildOptions where
  projectRoot : Path
  emitRoot : Path
  manifestName : String
  exportExtension : String
  builtinMark : String
  ignore : Option IgnoreList.Location
  dryRun : Bool
  deriving Repr

structure PackageSummary where
  name : String
  directory : Path
  artifacts : Nat
  entryPoint : Bool
  deriving Repr

/-- What a build has done or would do: its packages in module order, the artifacts that belong to
none of them, the changes, and how much was written. -/
structure BuildResult where
  packages : List PackageSummary
  unassigned : List Path
  changes : ChangeSet
  applied : Option Summary
  ignoreFile : Option Path
  deriving Repr

namespace BuildResult

def isDryRun (r : BuildResult) : Bool := r.applied.isNone

def packageNames (r : BuildResult) : List String := r.packages.map (·.name)

end BuildResult

namespace BuildOptions

def partition (o : BuildOptions) : Partition := ⟨o.emitRoot, o.exportExtension⟩

def planner (o : BuildOptions) : Planner := ⟨o.emitRoot, o.projectRoot, o.manifestName⟩

end BuildOptions

namespace Build
variable {m : Type → Type} [Monad m] [Workspace m]

def summarize (planner : Planner) (p : Package) : PackageSummary :=
  ⟨p.name, planner.packageRoot p, p.artifacts.length, p.manifest.entryPoint.isSome⟩

def unassigned (packages : List Package) (artifacts : List Artifact) : List Path :=
  let assigned := packages.flatMap fun p => p.artifacts.map (·.path)
  (artifacts.map (·.path)).filter fun path => !assigned.contains path

/-- The result of a build that has planned, but done nothing yet. -/
def planned (o : BuildOptions) (modules : List EmittedModule) (artifacts : List Artifact) :
    Except BuildError BuildResult := do
  let packages := o.partition.packages modules artifacts
  let changes ← (o.planner.plan packages).mapError .plan
  return ⟨packages.map (summarize o.planner), unassigned packages artifacts, changes, none, none⟩

/-- Everything up to the plan; only reads. -/
def prepare (emitter : Emitter) (discovery : Discovery) (o : BuildOptions) :
    ExceptT BuildError m (List Artifact × BuildResult) := do
  let artifacts ← ExceptT.mk (emitter.emit (m := m))
  let modules ← ExceptT.mk (discovery.discover (m := m) o.emitRoot)
  let result ← ExceptT.mk (pure (planned o modules artifacts))
  return (artifacts, result)

def removePresent : List Path → m Unit
  | [] => return ()
  | path :: paths => do
    if ← Workspace.isPresent (m := m) path then
      match ← Workspace.removeDirectory (m := m) path with
      | .ok _ => pure ()
      | .error e => Workspace.warn (.packageLeft path e)
    removePresent paths

/-- Removes the packages again, the last one first. -/
def removePackages (r : BuildResult) : m Unit :=
  removePresent (r.packages.map (·.directory)).reverse

def writeIgnoreList (o : BuildOptions) (result : BuildResult) : m (Except BuildError BuildResult) :=
  match o.ignore with
  | none => return .ok result
  | some location => do
    match ← IgnoreList.write (m := m) o.projectRoot location result.packageNames with
    | .ok path => return .ok { result with ignoreFile := some path }
    | .error e => do
      removePackages result
      return .error (.fs e)

def finish (o : BuildOptions) (artifacts : List Artifact) (result : BuildResult) :
    m (Except BuildError BuildResult) := do
  match ← Apply.apply (m := m) o.builtinMark artifacts result.changes with
  | .error e => return .error e
  | .ok summary => writeIgnoreList o { result with applied := some summary }

def run (emitter : Emitter) (discovery : Discovery) (o : BuildOptions) :
    m (Except BuildError BuildResult) := do
  match ← (prepare (m := m) emitter discovery o).run with
  | .error e => return .error e
  | .ok (artifacts, result) => do
    if !result.unassigned.isEmpty then
      Workspace.warn (.unassigned result.unassigned.length)
    if o.dryRun then return .ok result else finish o artifacts result

end Build
end Apportion
