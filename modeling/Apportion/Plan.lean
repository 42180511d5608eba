import Apportion.Package
import Apportion.Change
import Apportion.PositionMap.Document

/-!
Planning: which changes turn packages into directories of their own. Every artifact of a package
goes below the package's root, references between packaged artifacts follow them, and the sources
that position maps name stay what they were.
-/
namespace Apportion

inductive PlanError
  | duplicateAssignment (path : Path)
  | duplicateDestination (first second target : Path)
  | missingFinalPath (path : Path)
  | overlappingReferences (artifact : Path) (range : ByteRange)
  | invalidPositionMap (path : Path) (cause : PositionMap.MapError)
  | duplicateRoot (first second : String) (root : Path)
  | rootOverlapsEmission (package : String) (root emitted : Path)
  deriving Repr

namespace PlanError

def ofConflict : PathConflict → PlanError
  | .duplicateSource path => .duplicateAssignment path
  | .duplicateDestination first second target => .duplicateDestination first second target

def message : PlanError → String
  | duplicateAssignment path => s!"artifact {path.text} is assigned to more than one package"
  | duplicateDestination first second target =>
    s!"artifacts {first.text} and {second.text} would both be written to {target.text}"
  | missingFinalPath path => s!"{path.text} has no planned destination"
  | overlappingReferences artifact range =>
    s!"references in {artifact.text} overlap at {range.start}..{range.stop}"
  | invalidPositionMap path cause => s!"position map {path.text}: {cause.message}"
  | duplicateRoot first second root =>
    s!"packages '{first}' and '{second}' share the root {root.text}"
  | rootOverlapsEmission package root emitted =>
    s!"package '{package}' root {root.text} would replace emitted output {emitted.text}"

end PlanError

structure Planner where
  emitRoot : Path
  outputRoot : Path
  manifestName : String
  deriving Repr

namespace Planner

/-! ## Destinations -/

def packageRoot (p : Planner) (package : Package) : Path := p.outputRoot.join ⟨package.name⟩

/-- Where an artifact of a package goes: an artifact of a directory keeps its path in it, any other
its file name. -/
def finalPath (p : Planner) (package : Package) (a : Artifact) : Path :=
  let inside : Option Path :=
    match package.source with
    | .file _ => none
    | .directory directory _ => a.path.stripStart (p.emitRoot.join directory)
  (p.packageRoot package).join (inside.getD ⟨a.path.fileName.getD ""⟩)

def finalPaths (p : Planner) (packages : List Package) : Except PlanError PathMap :=
  (PathMap.ofPairs (packages.flatMap fun package =>
    package.artifacts.map fun a => (a.path, p.finalPath package a))).mapError PlanError.ofConflict

/-! ## Roots -/

/-- What no package may replace: the emission root and every packaged artifact. -/
def emitted (p : Planner) (packages : List Package) : List Path :=
  p.emitRoot :: packages.flatMap fun package => package.artifacts.map (·.path)

/-- Checks each root against those before it and against what was emitted, since making a package
removes all that its root held before. -/
def checkRoots (p : Planner) (emitted : List Path) (seen : List (Path × String)) :
    List Package → Except PlanError Unit
  | [] => .ok ()
  | package :: rest =>
    let root := p.packageRoot package
    match seen.find? fun e => e.1 == root with
    | some (_, first) => .error (.duplicateRoot first package.name root)
    | none =>
      match emitted.find? fun path => path.startsWith root with
      | some path => .error (.rootOverlapsEmission package.name root path)
      | none => p.checkRoots emitted ((root, package.name) :: seen) rest

/-! ## Revisions -/

def finalDirectory (paths : PathMap) (artifact : Path) : Except PlanError Path :=
  match (paths.get? artifact).bind Path.parent with
  | some dir => .ok dir
  | none => .error (.missingFinalPath artifact)

/-- The edit that makes a reference follow its target, if the target goes anywhere. -/
def referenceEdit (paths : PathMap) (artifact : Path) (r : Reference) :
    Except PlanError (Option TextEdit) :=
  match r.target.bind paths.get? with
  | none => .ok none
  | some target =>
    (finalDirectory paths artifact).map fun dir => some ⟨r.range, (dir.relative target).specifier⟩

/-- The second of the first two neighbours that overlap. -/
def firstOverlap : List TextEdit → Option ByteRange
  | a :: b :: rest => if a.range.overlaps b.range then some b.range else firstOverlap (b :: rest)
  | _ => none

/-- The edits of an artifact's references, in the order of their ranges. -/
def referenceChange (paths : PathMap) (a : Artifact) : Except PlanError (Option Change) := do
  let edits := (← a.references.mapM (referenceEdit paths a.path)).filterMap id
  let edits := edits.mergeSort fun e f => e.range.notAfter f.range
  if edits.isEmpty then return none
  match firstOverlap edits with
  | some range => throw (.overlappingReferences a.path range)
  | none => return some (.editReferences a.path edits)

/-- The directory that the sources of a map at `path` are relative to. -/
def sourceBase (path : Path) (sourceRoot : Option String) : Path :=
  let dir := path.parent.getD ⟨""⟩
  match sourceRoot with
  | some root => if root.isEmpty || Path.isExternalUrl root then dir else dir.join ⟨root⟩
  | none => dir

/-- A source that was relative to `base`, seen from `dir`: a URL stays, and a packaged artifact is
sought where it goes. -/
def moveSource (paths : PathMap) (base dir : Path) (source : String) : String :=
  if Path.isExternalUrl source then source
  else
    let place := (base.join ⟨source⟩).normalize
    (dir.relative ((paths.get? place).getD place)).slashed

/-- The sources of a position map as seen from its destination, if they differ. -/
def sourceChange (paths : PathMap) (a : Artifact) : Except PlanError (Option Change) := do
  let map ← (PositionMap.parse a.content).mapError (.invalidPositionMap a.path)
  let dir ← finalDirectory paths a.path
  let base := sourceBase a.path map.sourceRoot
  let sources := map.sources.map fun source => source.map (moveSource paths base dir)
  return if sources = map.sources then none else some (.setSources a.path sources)

def revisions (paths : PathMap) (a : Artifact) : Except PlanError (List Change) := do
  let references ← referenceChange paths a
  let sources ← if a.isMap then sourceChange paths a else .ok none
  return references.toList ++ sources.toList

/-! ## The plan -/

def layout (p : Planner) (package : Package) : List Change :=
  let root := p.packageRoot package
  [.createDirectory root, .writeManifest (root.join ⟨p.manifestName⟩) package.manifest.render]

def plan (p : Planner) (packages : List Package) : Except PlanError ChangeSet := do
  p.checkRoots (p.emitted packages) [] packages
  let paths ← p.finalPaths packages
  let revisions ← (packages.flatMap (·.artifacts)).mapM (revisions paths)
  return ChangeSet.ofList (packages.flatMap p.layout ++ revisions.flatten ++
    paths.entries.map fun (source, target) => .move source target)

end Planner
end Apportion
