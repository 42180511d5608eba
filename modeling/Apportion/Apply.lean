import Apportion.BuildError
import Apportion.Builtin
import Apportion.Edit.Trace
import Apportion.PositionMap.Compose

/-!
Making planned changes in a workspace, all or none. The work is laid out as five lists of tasks:
directories, manifests, revised texts, composed position maps, and plain copies. The lists are
done one after the other. If a task fails, every package directory is removed again, the last one
first. Emitted files are only read.
-/
namespace Apportion

/-- How much was written. -/
structure Summary where
  directories : Nat
  manifests : Nat
  revised : Nat
  composed : Nat
  copied : Nat
  deriving DecidableEq, Repr

namespace Apply
variable {m : Type → Type} [Monad m] [Workspace m]

/-! ## Tasks -/

/-- Where the text of a file comes from: it is known beforehand, or it is read when its turn
comes. -/
inductive Supply
  | known (text : Except BuildError String)
  | stored (source : Path) (revise : String → Except BuildError String)

structure Task where
  target : Path
  supply : Supply

structure Work where
  directories : List Path
  manifests : List Task
  revisions : List Task
  compositions : List Task
  copies : List Task

def Work.summary (w : Work) : Summary :=
  ⟨w.directories.length, w.manifests.length, w.revisions.length, w.compositions.length,
   w.copies.length⟩

/-! ## Laying out the work -/

/-- The artifact at a path, the last one if there are several. -/
def artifactAt (artifacts : List Artifact) (path : Path) : Option Artifact :=
  (artifacts.filter fun a => a.path == path).getLast?

/-- The edit that marks a builtin's specifier, unless it is marked already. -/
def markEdit (mark : String) (r : Reference) : Option TextEdit :=
  if r.builtin && !Builtin.isMarked mark r.specifier then some ⟨r.range, mark ++ r.specifier⟩
  else none

/-- The planned edits of an artifact, then the marks of its builtins. -/
def editsFor (mark : String) (changes : ChangeSet) (a : Artifact) : List TextEdit :=
  changes.editsOf a.path ++ a.references.filterMap (markEdit mark)

structure Revision where
  artifact : Artifact
  target : Path
  edits : List TextEdit

def Revision.buffer (r : Revision) : Except BuildError EditBuffer :=
  ((EditBuffer.ofText r.artifact.content).overwriteAll r.edits).mapError (.edit r.artifact.path)

/-- The artifacts that move and have edits. Position maps are never edited as texts. -/
def revisions (mark : String) (artifacts : List Artifact) (changes : ChangeSet) (paths : PathMap) :
    List Revision :=
  artifacts.filterMap fun a =>
    match paths.get? a.path with
    | none => none
    | some target =>
      let edits := editsFor mark changes a
      if a.isMap || edits.isEmpty then none else some ⟨a, target, edits⟩

def Revision.task (r : Revision) : Task := ⟨r.target, .known (r.buffer.map EditBuffer.render)⟩

/-- A position map's text with the sources planned for it. -/
def revisedMap (changes : ChangeSet) (path : Path) (text : String) :
    Except PositionMap.MapError PositionMap := do
  let map ← PositionMap.parse text
  match changes.sourcesOf path with
  | some sources => map.withSources sources
  | none => return map

/-- The map of an edited text, followed by the map that came with the text before it was edited. The
file name is the inner map's, if it has one. -/
def composedMap (changes : ChangeSet) (map : Artifact) (path : Path) (edited : PositionMap) :
    Except PositionMap.MapError PositionMap := do
  let inner ← revisedMap changes path map.content
  let composed ← PositionMap.compose edited inner
  return { composed with file := inner.file <|> edited.file }

/-- The position map that an edited artifact brings along: its path, artifact and destination. -/
def ownedMap (artifacts : List Artifact) (paths : PathMap) (a : Artifact) :
    Option (Path × Artifact × Path) := do
  let path ← a.map?
  return (path, ← artifactAt artifacts path, ← paths.get? path)

def compositionTask (changes : ChangeSet) (r : Revision) (path : Path) (map : Artifact)
    (target : Path) : Task :=
  let name := r.target.fileName.getD ""
  ⟨target, .known do
    let buffer ← r.buffer
    ((composedMap changes map path (buffer.positionMap name name)).map PositionMap.render).mapError
      (.positionMap path)⟩

/-- The text of a moved file: a position map gets the sources planned for it. -/
def revisedText (changes : ChangeSet) (source : Path) (text : String) : Except BuildError String :=
  if (changes.sourcesOf source).isSome then
    ((revisedMap changes source text).map PositionMap.render).mapError (.positionMap source)
  else .ok text

/-- A move of a file that is not edited. What is no artifact is read when its turn comes. -/
def copyTask (artifacts : List Artifact) (changes : ChangeSet) (source target : Path) : Task :=
  match artifactAt artifacts source with
  | some a => ⟨target, .known (revisedText changes source a.content)⟩
  | none => ⟨target, .stored source (revisedText changes source)⟩

def work (mark : String) (artifacts : List Artifact) (changes : ChangeSet) (paths : PathMap) :
    Work :=
  let revisions := revisions mark artifacts changes paths
  let maps := revisions.filterMap fun r => (ownedMap artifacts paths r.artifact).map (r, ·)
  let done := revisions.map (·.artifact.path) ++ maps.map (·.2.1)
  { directories := changes.directories
    manifests := changes.manifests.map fun (path, text) => ⟨path, .known (.ok text)⟩
    revisions := revisions.map Revision.task
    compositions := maps.map fun (r, path, map, target) => compositionTask changes r path map target
    copies := (changes.moves.filter fun (source, _) => !done.contains source).map
      fun (source, target) => copyTask artifacts changes source target }

/-! ## Doing the work -/

def attempt {α : Type} (op : m (Except FsError α)) : ExceptT BuildError m α :=
  ExceptT.mk (Except.mapError .fs <$> op)

def Supply.text : Supply → ExceptT BuildError m String
  | known text => ExceptT.mk (pure text)
  | stored source revise => do
    let text ← attempt (Workspace.read source)
    ExceptT.mk (pure (revise text))

def Task.run (t : Task) : ExceptT BuildError m Unit := do
  let text ← t.supply.text
  attempt (Workspace.write t.target text)

/-- Task by task, up to the first that fails. -/
def runAll : List Task → ExceptT BuildError m Unit
  | [] => return ()
  | t :: tasks => do
    t.run
    runAll tasks

/-- An empty directory in place of whatever the path led to. -/
def replaceDirectory (path : Path) : ExceptT BuildError m Unit := do
  if ← Workspace.isPresent (m := m) path then
    attempt (Workspace.removeDirectory path)
  attempt (Workspace.createDirectory path)

/-- Tries every directory, also after a failure; the first failure is the result. -/
def createDirectories : List Path → m (Except BuildError Unit)
  | [] => return .ok ()
  | path :: paths => do
    let first ← (replaceDirectory path).run
    let rest ← createDirectories paths
    return match first with
      | .error e => .error e
      | .ok _ => rest

def Work.run (w : Work) : ExceptT BuildError m Unit := do
  ExceptT.mk (createDirectories w.directories)
  runAll w.manifests
  runAll w.revisions
  runAll w.compositions
  runAll w.copies

/-- Removes directories in turn; what cannot be removed is left with a warning. -/
def removeAll (onFailure : Path → FsError → Warning) : List Path → m Unit
  | [] => return ()
  | path :: paths => do
    match ← Workspace.removeDirectory (m := m) path with
    | .ok _ => pure ()
    | .error e => Workspace.warn (onFailure path e)
    removeAll onFailure paths

def rollBack (directories : List Path) : m Unit := do
  Workspace.warn (.rollback directories.length)
  removeAll .directoryLeft directories.reverse

/-- The work done, or all its directories removed again. -/
def Work.runOrRollBack (w : Work) : m (Except BuildError Summary) := do
  match ← w.run.run with
  | .ok _ => return .ok w.summary
  | .error e => do
    rollBack w.directories
    return .error e

def apply (mark : String) (artifacts : List Artifact) (changes : ChangeSet) :
    m (Except BuildError Summary) :=
  match changes.destinations with
  | .error conflict => return .error (.plan (PlanError.ofConflict conflict))
  | .ok paths => (work mark artifacts changes paths).runOrRollBack

end Apply
end Apportion
