import Apportion.Path

/-!
What a build needs from its surroundings: a tree of files that can fail, and a place for warnings.
-/
namespace Apportion

inductive FsError
  | notFound (path : Path)
  | permissionDenied (path : Path)
  | io (path : Path) (message : String)
  | other (message : String)
  deriving Repr

namespace FsError

def message : FsError → String
  | notFound path => s!"file not found: {path.text}"
  | permissionDenied path => s!"permission denied: {path.text}"
  | io path message => s!"I/O error at {path.text}: {message}"
  | other message => message

def systemMessage : FsError → String
  | notFound _ => "No such file or directory (os error 2)"
  | permissionDenied _ => "Permission denied (os error 13)"
  | io _ message => message
  | other message => message

/-- The error behind this one, if it is told apart from it. -/
def causes : FsError → List String
  | io _ message => [message]
  | _ => []

end FsError

/-- What a user should know although the build goes on. -/
inductive Warning
  | unassigned (count : Nat)
  | rollback (count : Nat)
  | directoryLeft (path : Path) (cause : FsError)
  | packageLeft (path : Path) (cause : FsError)
  | unknownKey (key : String) (file : Path) (line : Option Nat) (suggestion : Option String)
  deriving Repr

/-- The text of a warning, its details after it. -/
def Warning.message : Warning → String
  | unassigned count => s!"artifacts outside every module stay in place count={count}"
  | rollback count => s!"rolling back package directories count={count}"
  | directoryLeft path cause =>
    s!"could not remove package directory path={path.text} error={cause.message}"
  | packageLeft path cause => s!"could not remove package path={path.text} error={cause.message}"
  | unknownKey key file line suggestion =>
    let hint := match suggestion with
      | some s => s!", did you mean '{s}'?"
      | none => ""
    let line := match line with
      | some n => s!"Some({n})"
      | none => "None"
    s!"unknown config key{hint} key={key} file={file.text} line={line}"

/-- File operations and warnings. Writing a file makes the directories above it; listing a directory
gives the paths of what is in it, in path order. -/
class Workspace (m : Type → Type) where
  read : Path → m (Except FsError String)
  write : Path → String → m (Except FsError Unit)
  isPresent : Path → m Bool
  isDirectory : Path → m Bool
  list : Path → m (Except FsError (List Path))
  createDirectory : Path → m (Except FsError Unit)
  removeDirectory : Path → m (Except FsError Unit)
  warn : Warning → m Unit

end Apportion
