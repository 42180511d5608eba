import Apportion.BuildError
import Apportion.Builtin
import Apportion.Resolve

/-!
Emit reports: what a compiler writes about its output. A report is a JSON object with diagnostics
and with the artifacts that were emitted, each with the references found in it. From a report and
the files it lists come the artifacts of a build.
-/
namespace Apportion

structure ReportedReference where
  specifier : String
  range : ByteRange
  target : Option Path
  builtin : Option Bool
  deriving Repr

structure ReportedArtifact where
  path : Path
  references : List ReportedReference
  deriving Repr

structure EmitReport where
  diagnostics : List String
  artifacts : List ReportedArtifact
  deriving Repr

/-! ## Reading a report -/

section
open Json

def decodePath : Decoder Path := fun j => (decodeString j).map (⟨·⟩)

/-- Offsets are below this limit. -/
def offsetLimit : Nat := 0x10000000000000000

def ReportedReference.fromJson : Decoder ReportedReference := fun j =>
  match record ["specifier", "start", "end", "target", "builtin"] j with
  | some [specifier, start, stop, target, builtin] => do
    let specifier ← decodeField decodeString none specifier
    let start ← decodeField (decodeNat offsetLimit) none start
    let stop ← decodeField (decodeNat offsetLimit) none stop
    let target ← decodeField (decodeOptional decodePath) (some none) target
    let builtin ← decodeField (decodeOptional decodeBool) (some none) builtin
    return ⟨specifier, ⟨start, stop⟩, target, builtin⟩
  | _ => none

def ReportedArtifact.fromJson : Decoder ReportedArtifact := fun j =>
  match record ["path", "references"] j with
  | some [path, references] => do
    let path ← decodeField decodePath none path
    let references ← decodeField (decodeList ReportedReference.fromJson) (some []) references
    return ⟨path, references⟩
  | _ => none

def EmitReport.fromJson : Decoder EmitReport := fun j =>
  match record ["diagnostics", "artifacts"] j with
  | some [diagnostics, artifacts] => do
    let diagnostics ← decodeField (decodeList decodeString) (some []) diagnostics
    let artifacts ← decodeField (decodeList ReportedArtifact.fromJson) (some []) artifacts
    return ⟨diagnostics, artifacts⟩
  | _ => none

/-- The report of a text. Of fields under one key the last counts. -/
def EmitReport.parse (text : String) : Except ReportFault EmitReport :=
  match readPlain text with
  | none => .error .malformed
  | some (.object fields) =>
    match EmitReport.fromJson (keepLast (.object fields)) with
    | some report => .ok report
    | none => .error .malformed
  | some _ => .error .notObject

end

/-! ## Collecting the artifacts -/

/-- Where the report and the emitted files lie, and how references are understood. -/
structure Emitter where
  emitRoot : Path
  report : Path
  resolver : Resolver
  builtinMark : String
  deriving Repr

namespace Emitter
variable {m : Type → Type} [Monad m] [Workspace m]

/-- A reported path counts from the emission root. -/
def absolute (e : Emitter) (path : Path) : Path := (e.emitRoot.join path).normalize

def target (e : Emitter) (artifact : Path) (specifier : String) : m (Option Path) := do
  match ← e.resolver.resolve (m := m) (artifact.parent.getD e.emitRoot) specifier with
  | .project path => return some path
  | _ => return none

/-- A reference with all that the report may leave open: builtins are told by their names, and
targets are sought unless the reference is a builtin. -/
def reference (e : Emitter) (artifact : Path) (r : ReportedReference) : m Reference := do
  let builtin := r.builtin.getD (Builtin.isBuiltin e.builtinMark r.specifier)
  let target ← match r.target with
    | some target => pure (some (e.absolute target))
    | none => if builtin then pure none else e.target (m := m) artifact r.specifier
  return ⟨r.specifier, r.range, target, builtin⟩

def references (e : Emitter) (artifact : Path) : List ReportedReference → m (List Reference)
  | [] => return []
  | r :: rs => do
    let first ← e.reference (m := m) artifact r
    return first :: (← e.references artifact rs)

/-- The reported artifacts, with their texts read one by one. One whose position map is listed too
comes with it. -/
def artifacts (e : Emitter) (listed : List Path) :
    List ReportedArtifact → m (Except BuildError (List Artifact))
  | [] => return .ok []
  | a :: rest => do
    let path := e.absolute a.path
    match ← Workspace.read (m := m) path with
    | .error cause => return .error (.fs cause)
    | .ok text => do
      let references ← e.references (m := m) path a.references
      let later ← e.artifacts listed rest
      return later.map (⟨path, text, references, listed.contains path.mapPath⟩ :: ·)

/-- The artifacts of a build; diagnostics of the compiler end it. -/
def emit (e : Emitter) : m (Except BuildError (List Artifact)) := do
  match ← Workspace.read (m := m) e.report with
  | .error cause => return .error (.fs cause)
  | .ok text =>
    match EmitReport.parse text with
    | .error fault => return .error (.invalidReport e.report fault)
    | .ok report =>
      if report.diagnostics.isEmpty then
        e.artifacts (report.artifacts.map fun a => e.absolute a.path) report.artifacts
      else return .error (.emission report.diagnostics)

end Emitter
end Apportion
