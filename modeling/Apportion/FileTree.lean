import Apportion.Path

/-!
A tree of files as a value: directories and files under the names that lead to them from the root.
The root is always there, as a directory. An entry counts under its first occurrence.
-/
namespace Apportion

/-- The names from the root down to a file or directory. -/
abbrev Key := List String

inductive Node (α : Type)
  | directory
  | file (content : α)
  deriving DecidableEq, Repr

structure FileTree (α : Type) where
  entries : List (Key × Node α)
  deriving Repr

namespace FileTree
variable {α : Type}

def empty : FileTree α := ⟨[]⟩

def get? (t : FileTree α) (k : Key) : Option (Node α) :=
  if k = [] then some .directory else (t.entries.find? fun e => e.1 == k).map (·.2)

def file? (t : FileTree α) (k : Key) : Option α :=
  match t.get? k with
  | some (.file content) => some content
  | _ => none

def isFile (t : FileTree α) (k : Key) : Bool := (t.file? k).isSome

def isDirectory (t : FileTree α) (k : Key) : Bool :=
  match t.get? k with
  | some .directory => true
  | _ => false

/-- The tree with another node at a place. -/
def set (t : FileTree α) (k : Key) (node : Node α) : FileTree α :=
  ⟨(k, node) :: t.entries.filter fun e => e.1 != k⟩

/-- The tree without a place and all below it. -/
def remove (t : FileTree α) (k : Key) : FileTree α :=
  ⟨t.entries.filter fun e => !k.isPrefixOf e.1⟩

/-- The places above a place, outermost first, without the root. -/
def above : Key → List Key
  | [] | [_] => []
  | name :: rest => [name] :: (above rest).map (name :: ·)

/-- The tree with a directory at a place where nothing stands. -/
def mkdir (t : FileTree α) (k : Key) : FileTree α :=
  if (t.get? k).isSome then t else t.set k .directory

/-- The tree with directories at a place and all above it where nothing stands. -/
def mkdirs (t : FileTree α) (k : Key) : FileTree α := (above k ++ [k]).foldl mkdir t

/-- The tree with a file, and directories above it where nothing stands. -/
def put (t : FileTree α) (k : Key) (content : α) : FileTree α :=
  ((above k).foldl mkdir t).set k (.file content)

/-- The name of an entry right below a place. -/
def childName (k : Key) (entry : Key) : Option String :=
  if k.isPrefixOf entry then
    match entry.drop k.length with
    | [name] => some name
    | _ => none
  else none

/-- The names right below a place, in order. -/
def children (t : FileTree α) (k : Key) : List String :=
  (t.entries.filterMap fun e => childName k e.1).eraseDups.mergeSort fun a b => a ≤ b

def keyText (k : Key) : String := "/" ++ "/".intercalate k

/-- Places of the tree besides the root, each once. -/
def places (t : FileTree α) : List Key := (t.entries.map (·.1)).eraseDups

end FileTree
end Apportion
