import Apportion.BuildError
import Apportion.Resolve

/-!
Finding the modules of an emitted tree. Every code file right below the root is a module of its own,
and so is every directory there; its entry point is the first of the candidates that exists.
-/
namespace Apportion

/-- The extensions of code files, and the base names of entry points, both in order. -/
structure Discovery where
  codeExtensions : List String
  entryCandidates : List String
  deriving DecidableEq, Repr

namespace Discovery
variable {m : Type → Type} [Monad m] [Workspace m]

def isCode (d : Discovery) (path : Path) : Bool := d.codeExtensions.contains path.extension

/-- The entry points that a directory can have; after the general candidates comes its own name. -/
def entries (d : Discovery) (directory : Path) : List Path :=
  match directory.fileName with
  | none => []
  | some name =>
    (d.entryCandidates ++ [name]).flatMap fun base =>
      d.codeExtensions.map fun extension => directory.join ⟨base ++ extension⟩

def findEntry (d : Discovery) (root directory : Path) : m (Option Path) := do
  return (← Resolver.firstFile (m := m) (d.entries directory)).bind fun p => p.stripStart root

/-- The modules among the given paths: files, and directories. -/
def classify (d : Discovery) (root : Path) :
    List Path → m (List EmittedModule × List EmittedModule)
  | [] => return ([], [])
  | path :: paths => do
    match path.stripStart root with
    | none => d.classify root paths
    | some relative => do
      if ← Workspace.isDirectory (m := m) path then
        let entry ← d.findEntry (m := m) root path
        let (files, directories) ← d.classify root paths
        return (files, .directory relative entry :: directories)
      else
        let (files, directories) ← d.classify root paths
        return (if d.isCode path then .file relative :: files else files, directories)

def discover (d : Discovery) (root : Path) : m (Except BuildError (List EmittedModule)) := do
  if !(← Workspace.isDirectory (m := m) root) then return .error (.directoryNotFound root)
  match ← Workspace.list (m := m) root with
  | .error e => return .error (.fs e)
  | .ok paths => do
    let (files, directories) ← d.classify (m := m) root paths
    return .ok (files ++ directories)

end Discovery
end Apportion
