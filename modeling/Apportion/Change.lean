import Apportion.PathMap
import Apportion.Edit

/-!
Changes that turn an emitted tree into packages, as plain data, and lists of them in which the
layout comes first, then the revision of texts, then the moves.
-/
namespace Apportion

inductive Change
  | createDirectory (path : Path)
  | writeManifest (path : Path) (content : String)
  | editReferences (artifact : Path) (edits : List TextEdit)
  | setSources (map : Path) (sources : List (Option String))
  | move (source target : Path)
  deriving Repr

/-- All changes of a phase are made before the next phase begins. -/
inductive Phase
  | layout
  | revise
  | move
  deriving DecidableEq, Repr

def Phase.rank : Phase → Nat
  | layout => 0
  | revise => 1
  | move => 2

def Change.phase : Change → Phase
  | createDirectory _ | writeManifest _ _ => .layout
  | editReferences _ _ | setSources _ _ => .revise
  | move _ _ => .move

/-- Changes in the order of their phases. -/
structure ChangeSet where
  changes : List Change
  deriving Repr

namespace ChangeSet

def inPhase (phase : Phase) (changes : List Change) : List Change :=
  changes.filter fun c => c.phase == phase

/-- The changes put into phase order; within a phase they keep their order. -/
def ofList (changes : List Change) : ChangeSet :=
  ⟨inPhase .layout changes ++ inPhase .revise changes ++ inPhase .move changes⟩

def isOrdered (s : ChangeSet) : Bool :=
  (s.changes.zip s.changes.tail).all fun (a, b) => a.phase.rank ≤ b.phase.rank

def directories (s : ChangeSet) : List Path :=
  s.changes.filterMap fun
    | .createDirectory path => some path
    | _ => none

def manifests (s : ChangeSet) : List (Path × String) :=
  s.changes.filterMap fun
    | .writeManifest path content => some (path, content)
    | _ => none

def moves (s : ChangeSet) : List (Path × Path) :=
  s.changes.filterMap fun
    | .move source target => some (source, target)
    | _ => none

def destinations (s : ChangeSet) : Except PathConflict PathMap := PathMap.ofPairs s.moves

/-! ## Revisions by file -/

/-- All planned edits of an artifact, in order. -/
def editsOf (s : ChangeSet) (p : Path) : List TextEdit :=
  s.changes.flatMap fun
    | .editReferences artifact edits => if artifact == p then edits else []
    | _ => []

/-- The sources that a position map gets: the last list planned for it. -/
def sourcesOf (s : ChangeSet) (p : Path) : Option (List (Option String)) :=
  (s.changes.filterMap fun
    | .setSources map sources => if map == p then some sources else none
    | _ => none).getLast?

/-- Distinct paths in path order, each as it was first spelled. -/
def distinct (paths : List Path) : List Path := paths.eraseDups.mergeSort Path.precedes

def editedArtifacts (s : ChangeSet) : List Path :=
  distinct (s.changes.filterMap fun
    | .editReferences artifact _ => some artifact
    | _ => none)

def revisedMaps (s : ChangeSet) : List Path :=
  distinct (s.changes.filterMap fun
    | .setSources map _ => some map
    | _ => none)

end ChangeSet
end Apportion
