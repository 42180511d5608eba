import Apportion.Plan
import Apportion.Workspace

/-!
Everything that can end a build, and the words for it.
-/
namespace Apportion

inductive ReportFault
  | malformed
  | notObject
  deriving DecidableEq, Repr

inductive BuildError
  | emission (diagnostics : List String)
  | invalidReport (file : Path) (fault : ReportFault)
  | invalidSettings (file : Path)
  | directoryNotFound (path : Path)
  | plan (cause : PlanError)
  | edit (path : Path) (cause : EditError)
  | positionMap (path : Path) (cause : PositionMap.MapError)
  | fs (cause : FsError)
  | io (message : String)
  deriving Repr

namespace BuildError

def message : BuildError → String
  | emission diagnostics =>
    s!"emission failed with {diagnostics.length} diagnostic(s):\n" ++ "\n".intercalate diagnostics
  | invalidReport file .malformed => s!"invalid emit report {file.text}"
  | invalidReport file .notObject => s!"invalid emit report {file.text}: expected a JSON object"
  | invalidSettings file => s!"invalid configuration in {file.text}"
  | directoryNotFound path => s!"directory not found: {path.text}"
  | plan cause => cause.message
  | edit path cause => s!"rewriting {path.text}: {cause.message}"
  | positionMap path cause => s!"position map {path.text}: {cause.message}"
  | fs cause => cause.message
  | io message => s!"IO error: {message}"

/-- The messages of the errors behind this one, from the nearest on. -/
def causes : BuildError → List String
  | edit _ cause => [cause.message]
  | positionMap _ cause => [cause.message]
  | fs cause => cause.causes
  | io message => [message]
  | _ => []

end BuildError
end Apportion
