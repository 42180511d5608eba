import Apportion.Path
import Apportion.Edit

/-!
Artifacts: the files that a compiler has emitted, with their text and the places in it that refer to
other modules. Offsets of references are those of the text as emitted.
-/
namespace Apportion

/-- What an artifact is, by its extension. -/
inductive Kind
  | code
  | declaration
  | positionMap
  | other
  deriving DecidableEq, Repr

namespace Kind

def ofPath (p : Path) : Kind :=
  let extension := p.extension
  if [".js", ".mjs", ".cjs", ".jsx"].contains extension then code
  else if [".d.ts", ".d.mts", ".d.cts"].contains extension then declaration
  else if ".map".toList.isSuffixOf extension.toList then positionMap
  else other

/-- Whether artifacts of this kind can have a position map beside them. -/
def ownsMap : Kind → Bool
  | code | declaration => true
  | positionMap | other => false

end Kind

/-- A place in an artifact's text that names another module. -/
structure Reference where
  specifier : String
  range : ByteRange
  target : Option Path
  builtin : Bool
  deriving Repr

/-- An emitted file. `mapped` says that its position map was emitted too. -/
structure Artifact where
  path : Path
  content : String
  references : List Reference
  mapped : Bool
  deriving Repr

def Path.mapPath (p : Path) : Path := ⟨p.text ++ ".map"⟩

namespace Artifact

def kind (a : Artifact) : Kind := Kind.ofPath a.path

def map? (a : Artifact) : Option Path :=
  if a.mapped && a.kind.ownsMap then some a.path.mapPath else none

def isCode (a : Artifact) : Bool := a.kind == .code

def isMap (a : Artifact) : Bool := a.kind == .positionMap

end Artifact
end Apportion
