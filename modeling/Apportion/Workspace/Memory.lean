import Apportion.FileTree
import Apportion.Workspace

/-!
A workspace held in memory. Calls that change the tree are logged, and rules can make calls fail
before they do anything. A path leads to the same place from everywhere: relative paths count from
the root, and `..` takes back a name.
-/
namespace Apportion

/-- The place that a path leads to from the root. -/
def Path.place (p : Path) : Key :=
  (p.components.foldl (fun stack c =>
    match c with
    | .name s => s :: stack
    | .parent => stack.tail
    | _ => stack) []).reverse

/-- The operations that can be made to fail. -/
inductive Call
  | read
  | write
  | createDirectory
  | removeDirectory
  | list
  deriving DecidableEq, Repr

inductive FailureKind
  | notFound
  | permissionDenied
  | io (message : String)
  | other (message : String)
  deriving DecidableEq, Repr

/-- Makes a call at a place fail, or at all places below it too, after some calls that pass. -/
structure FailureRule where
  call : Call
  place : Key
  below : Bool
  skip : Nat
  kind : FailureKind
  deriving DecidableEq, Repr

structure LogEntry where
  call : Call
  path : Path
  failed : Bool
  deriving Repr

structure Memory where
  tree : FileTree String
  rules : List FailureRule
  log : List LogEntry
  deriving Repr

namespace FailureKind

def error (kind : FailureKind) (path : Path) : FsError :=
  match kind with
  | notFound => .notFound path
  | permissionDenied => .permissionDenied path
  | io message => .io path message
  | other message => .other message

end FailureKind

namespace FailureRule

def hits (r : FailureRule) (call : Call) (place : Key) : Bool :=
  r.call == call && (r.place == place || (r.below && r.place.isPrefixOf place))

/-- The failure of a call, and the rules afterwards. A rule that lets the call pass counts down. -/
def consult (call : Call) (place : Key) : List FailureRule → Option FailureKind × List FailureRule
  | [] => (none, [])
  | r :: rules =>
    if r.hits call place then
      if r.skip = 0 then (some r.kind, r :: rules)
      else
        let (kind, rules) := consult call place rules
        (kind, { r with skip := r.skip - 1 } :: rules)
    else
      let (kind, rules) := consult call place rules
      (kind, r :: rules)

end FailureRule

namespace Memory

def ofTree (tree : FileTree String) : Memory := ⟨tree, [], []⟩

/-! ## The operations without failure rules -/

def isDirectoryError (place : Key) : FsError := .other ("is a directory: " ++ FileTree.keyText place)

def notDirectoryError (place : Key) : FsError := .other ("not a directory: " ++ FileTree.keyText place)

def readAt (tree : FileTree String) (path : Path) : Except FsError String :=
  match tree.get? path.place with
  | some (.file text) => .ok text
  | some .directory => .error (isDirectoryError path.place)
  | none => .error (.notFound path)

def writeAt (tree : FileTree String) (path : Path) (text : String) :
    Except FsError (FileTree String) :=
  let place := path.place
  if tree.isDirectory place then .error (isDirectoryError place)
  else
    match (FileTree.above place).find? tree.isFile with
    | some file => .error (notDirectoryError file)
    | none => .ok (tree.put place text)

def createAt (tree : FileTree String) (path : Path) : Except FsError (FileTree String) :=
  let place := path.place
  match (FileTree.above place ++ [place]).find? tree.isFile with
  | some file => .error (notDirectoryError file)
  | none => .ok (tree.mkdirs place)

def removeAt (tree : FileTree String) (path : Path) : Except FsError (FileTree String) :=
  if tree.isDirectory path.place then .ok (tree.remove path.place) else .error (.notFound path)

def listAt (tree : FileTree String) (path : Path) : Except FsError (List Path) :=
  if tree.isDirectory path.place then .ok ((tree.children path.place).map fun n => path.join ⟨n⟩)
  else .error (.notFound path)

/-! ## The operations under failure rules -/

def query {α : Type} (call : Call) (path : Path) (run : FileTree String → Except FsError α) :
    StateM Memory (Except FsError α) := fun s =>
  match FailureRule.consult call path.place s.rules with
  | (some kind, rules) => (.error (kind.error path), { s with rules := rules })
  | (none, rules) => (run s.tree, { s with rules := rules })

def update (call : Call) (path : Path)
    (run : FileTree String → Except FsError (FileTree String)) :
    StateM Memory (Except FsError Unit) := fun s =>
  let (failure, rules) := FailureRule.consult call path.place s.rules
  let result : Except FsError (FileTree String) := match failure with
    | some kind => .error (kind.error path)
    | none => run s.tree
  match result with
  | .ok tree => (.ok (), ⟨tree, rules, s.log ++ [⟨call, path, false⟩]⟩)
  | .error e => (.error e, ⟨s.tree, rules, s.log ++ [⟨call, path, true⟩]⟩)

instance : Workspace (StateM Memory) where
  read path := query .read path fun tree => readAt tree path
  write path text := update .write path fun tree => writeAt tree path text
  isPresent path := fun s => ((s.tree.get? path.place).isSome, s)
  isDirectory path := fun s => (s.tree.isDirectory path.place, s)
  list path := query .list path fun tree => listAt tree path
  createDirectory path := update .createDirectory path fun tree => createAt tree path
  removeDirectory path := update .removeDirectory path fun tree => removeAt tree path
  warn _ := fun s => ((), s)

end Memory
end Apportion
