import Apportion.Path

/-!
Lexical path arithmetic: resolving `.` and `..` by text alone, the way from one directory to
another place, and the spelling of a relative path as a module specifier.
-/
namespace Apportion.Path

/-! ## Normal form -/

/-- One component on a stack whose top comes first: `..` takes back a name, stays at the root, and
is kept where nothing is left to take back. -/
def pushComponent (stack : List Component) : Component → List Component
  | .current => stack
  | .parent =>
    match stack with
    | .name _ :: rest => rest
    | .root :: _ => stack
    | _ => .parent :: stack
  | c => c :: stack

def normalComponents (cs : List Component) : List Component := (cs.foldl pushComponent []).reverse

/-- The path without `.`, and with `..` only where it climbs out of a relative path. -/
def normalize (p : Path) : Path := ofComponents (normalComponents p.components)

/-! ## From one place to another -/

/-- Both lists without their longest common beginning. -/
def dropCommon : List Component → List Component → List Component × List Component
  | a :: as, b :: bs => if a = b then dropCommon as bs else (a :: as, b :: bs)
  | as, bs => (as, bs)

/-- The way from the directory `source` to `target`: as many `..` as needed, then down. It is empty
if both are the same place. -/
def relative (source target : Path) : Path :=
  let (up, down) := dropCommon source.normalize.components target.normalize.components
  ofComponents (up.map (fun _ => Component.parent) ++ down)

/-! ## Module specifiers -/

/-- The components with `/` between two neighbours. -/
def slashed (p : Path) : String :=
  String.ofList (Text.join ['/'] (p.components.map fun c => c.text.toList))

/-- Whether a specifier says by its own text that it is relative. -/
def isExplicit (specifier : String) : Bool :=
  match specifier.toList with
  | ['.'] | ['.', '.'] | '.' :: '/' :: _ | '.' :: '.' :: '/' :: _ => true
  | _ => false

/-- `./` in front, unless the text is relative already. -/
def explicit (specifier : String) : String :=
  if isExplicit specifier then specifier else "./" ++ specifier

/-- A relative path as a specifier, which no resolver takes for a package name. -/
def specifier (p : Path) : String := explicit p.slashed

/-- Whether a specifier is a URL: a scheme of at least two characters that starts with a letter and
holds letters, digits, `+`, `-` and `.` only, then a colon and something after it. -/
def isExternalUrl (specifier : String) : Bool :=
  let text := specifier.toList
  let scheme := text.takeWhile (· ≠ ':')
  1 < scheme.length && 1 < (text.drop scheme.length).length &&
  scheme.head?.any Char.isAlpha &&
  scheme.all fun c => c.isAlphanum || c == '+' || c == '-' || c == '.'

end Apportion.Path
