import Apportion.Text.Split

/-!
Paths, written as text with `/` between segments. A path keeps the text it was written as, and is
read through its components: repeated and trailing slashes and every `.` but a leading one mean
nothing. Equality and order are those of the component lists. The extensions of declarations and of
position maps are compound, such as `.d.ts.map`; every other extension starts at the last dot of the
file name, and a leading dot starts none. Nothing here looks at a disk.
-/
namespace Apportion
open Text

/-- One step of a path. `current` stands only at the front, for a path that begins with `.`. -/
inductive Component
  | root
  | current
  | parent
  | name (text : String)
  deriving DecidableEq, Repr

namespace Component

/-- What a segment between slashes stands for; empty segments and `.` stand for nothing. -/
def ofSegment (segment : List Char) : Option Component :=
  if segment = [] ∨ segment = ['.'] then none
  else if segment = ['.', '.'] then some parent
  else some (name (String.ofList segment))

def text : Component → String
  | root => "/"
  | current => "."
  | parent => ".."
  | name s => s

/-- The root comes first, then the dots, then names by code point. -/
def rank : Component → Nat
  | root => 0
  | current => 1
  | parent => 2
  | name _ => 3

def compare : Component → Component → Ordering
  | name s, name t => compareOfLessAndEq s t
  | a, b => Ord.compare a.rank b.rank

end Component

/-- A path as it was written. -/
structure Path where
  text : String
  deriving Repr, Inhabited

namespace Path

/-! ## Components -/

def segments (p : Path) : List (List Char) := split '/' p.text.toList

/-- The component at the front that is no ordinary segment: the root, or a leading `.`. -/
def start (p : Path) : Option Component :=
  match p.segments with
  | [] :: _ :: _ => some .root
  | ['.'] :: _ => some .current
  | _ => none

def body (p : Path) : List (List Char) :=
  if p.start.isSome then p.segments.tail else p.segments

def components (p : Path) : List Component := p.start.toList ++ p.body.filterMap Component.ofSegment

def isAbsolute (p : Path) : Bool := p.start == some .root

/-- Paths with the same components are the same path. -/
instance : BEq Path := ⟨fun p q => p.components == q.components⟩

/-- Component by component; a path comes before what lies below it. -/
def compareComponents : List Component → List Component → Ordering
  | [], [] => .eq
  | [], _ :: _ => .lt
  | _ :: _, [] => .gt
  | a :: as, b :: bs => (a.compare b).then (compareComponents as bs)

instance : Ord Path := ⟨fun p q => compareComponents p.components q.components⟩

def precedes (p q : Path) : Bool := compare p q != .gt

/-! ## Building -/

/-- `q` as seen from the directory `p`: an absolute `q` stands for itself, and an empty one adds a
slash. -/
def join (p q : Path) : Path :=
  if q.isAbsolute then q
  else if p.text.isEmpty || p.text.toList.getLast? == some '/' then ⟨p.text ++ q.text⟩
  else ⟨p.text ++ "/" ++ q.text⟩

/-- The components joined from the empty path on; a root in the middle starts afresh. -/
def ofComponents (cs : List Component) : Path := cs.foldl (fun p c => p.join ⟨c.text⟩) ⟨""⟩

def ofParts (start : Option Component) (body : List (List Char)) : Path :=
  match start, body with
  | some .root, [] => ⟨"/"⟩
  | some .root, body => ⟨String.ofList (Text.join ['/'] ([] :: body))⟩
  | some c, body => ⟨String.ofList (Text.join ['/'] (c.text.toList :: body))⟩
  | none, body => ⟨String.ofList (Text.join ['/'] body)⟩

/-! ## Taking apart -/

def isIdle (segment : List Char) : Bool := (Component.ofSegment segment).isNone

/-- Everything before the last component, `none` for the root and the empty path. -/
def parent (p : Path) : Option Path :=
  match dropEndWhile isIdle p.body with
  | [] => if p.start = some .current then some ⟨""⟩ else none
  | body => some (ofParts p.start (dropEndWhile isIdle body.dropLast))

/-- The last component if it is a name. -/
def fileName (p : Path) : Option String :=
  match p.components.getLast? with
  | some (.name s) => some s
  | _ => none

/-- The path itself, its parent, and so on. -/
def ancestorsFrom : Nat → Path → List Path
  | 0, p => [p]
  | n + 1, p =>
    match p.parent with
    | some q => p :: ancestorsFrom n q
    | none => [p]

def ancestors (p : Path) : List Path := ancestorsFrom p.components.length p

/-- The last component replaced by a name, which is added if the last component is no name. -/
def withFileName (p : Path) (name : String) : Path :=
  match p.fileName, p.parent with
  | some _, some dir => dir.join ⟨name⟩
  | _, _ => p.join ⟨name⟩

/-- Whether `q` is `p` or lies above it, component by component. -/
def startsWith (p q : Path) : Bool := q.components.isPrefixOf p.components

def dropComponents : List (List Char) → List Component → Option (List (List Char))
  | segments, [] => some segments
  | [], _ :: _ => none
  | s :: segments, c :: cs =>
    match Component.ofSegment s with
    | none => dropComponents segments (c :: cs)
    | some d => if d = c then dropComponents segments cs else none

/-- What is left of `p` below `q`; `none` if `p` is not at or below `q`. -/
def stripStart (p q : Path) : Option Path :=
  let trimmed := fun body => dropEndWhile isIdle body
  let relative := fun body => ofParts none (trimmed (body.dropWhile isIdle))
  match p.start, q.components with
  | front, [] => some (ofParts front (trimmed p.body))
  | some front, c :: cs => if c = front then (dropComponents p.body cs).map relative else none
  | none, cs => (dropComponents p.body cs).map relative

/-! ## Extensions -/

/-- Compound extensions, the first that fits wins. -/
def compoundExtensions : List String :=
  [".d.ts.map", ".d.mts.map", ".d.cts.map", ".js.map", ".mjs.map", ".cjs.map",
   ".d.ts", ".d.mts", ".d.cts"]

/-- From the last dot on, unless that dot comes first or there is none. -/
def simpleExtension (name : List Char) : List Char :=
  match name with
  | [] => []
  | _ :: rest =>
    if '.' ∈ rest then '.' :: (rest.reverse.takeWhile (· ≠ '.')).reverse else []

/-- The extension of a file name: a compound one that is not the whole name, or the simple one. -/
def extensionOf (name : String) : String :=
  match compoundExtensions.find? fun e => name ≠ e && e.toList.isSuffixOf name.toList with
  | some e => e
  | none => String.ofList (simpleExtension name.toList)

/-- The extension of the last component, empty if that is no name. -/
def extension (p : Path) : String := (p.fileName.map extensionOf).getD ""

def stem (p : Path) : String :=
  let name := (p.fileName.getD "").toList
  String.ofList (name.take (name.length - p.extension.toList.length))

def withExtension (p : Path) (extension : String) : Path := p.withFileName (p.stem ++ extension)

end Path
end Apportion
