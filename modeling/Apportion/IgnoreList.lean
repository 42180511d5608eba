import Apportion.BuildError
import Apportion.Text.Split

/-!
Ignore lists: a text of the user's, followed by a block that names the generated packages. Writing
the list again replaces the block and leaves the user's lines alone.
-/
namespace Apportion.IgnoreList
open Text

def blockStart : String := "# >>> pkgsplit generated packages >>>"

def blockEnd : String := "# <<< pkgsplit generated packages <<<"

/-- The lines outside of blocks. A start line opens a block wherever it stands; an end line closes
one, and is an ordinary line if none is open. -/
def outside (inBlock : Bool) : List (List Char) → List (List Char)
  | [] => []
  | line :: lines =>
    if trim line = blockStart.toList then outside true lines
    else if inBlock then outside (trim line ≠ blockEnd.toList) lines
    else line :: outside false lines

/-- The user's part of a list, without white space at its end. -/
def userPart (template : String) : List Char :=
  trimEnd (join ['\n'] (outside false (lines template.toList)))

def block (names : List String) : List Char :=
  blockStart.toList ++ '\n' :: names.flatMap (fun name => '/' :: name.toList ++ ['\n']) ++
    blockEnd.toList ++ ['\n']

def render (template : String) (names : List String) : String :=
  let user := userPart template
  String.ofList ((if user = [] then [] else user ++ ['\n', '\n']) ++ block names)

/-- Where the user's part comes from and where the list goes, relative to the project. -/
structure Location where
  template : Path
  file : Path
  deriving Repr

/-- Writes the list; the result is the path written to. -/
def write {m : Type → Type} [Monad m] [Workspace m] (root : Path) (location : Location)
    (names : List String) : m (Except FsError Path) := do
  let source := root.join location.template
  let template ← if ← Workspace.isPresent (m := m) source then Workspace.read source else pure (.ok "")
  match template with
  | .error e => return .error e
  | .ok template => do
    let target := root.join location.file
    return (← Workspace.write (m := m) target (render template names)).map fun _ => target

end Apportion.IgnoreList
