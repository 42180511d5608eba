import Apportion.FileTree
import Apportion.Workspace

/-!
A workspace on a disk with the rules of a POSIX system, as a value. A path is walked step by step
from the root or from the current directory, so `..` leads out of a directory that must exist. A file
is written beside its destination first and then renamed. The disk holds no links.
-/
namespace Apportion

/-- What a file holds: a text, or bytes that are no UTF-8 text. -/
inductive Content
  | text (s : String)
  | bytes (b : List UInt8)
  deriving DecidableEq, Repr

def Content.ofBytes (b : ByteArray) : Content :=
  match String.fromUTF8? b with
  | some s => text s
  | none => bytes b.toList

inductive SystemError
  | noEntry
  | busy
  | fileExists
  | notDirectory
  | isDirectory
  | invalidArgument
  | nameTooLong
  | notEmpty
  | nulByte
  | notText
  deriving DecidableEq, Repr

namespace SystemError

def message : SystemError → String
  | noEntry => "No such file or directory (os error 2)"
  | busy => "Device or resource busy (os error 16)"
  | fileExists => "File exists (os error 17)"
  | notDirectory => "Not a directory (os error 20)"
  | isDirectory => "Is a directory (os error 21)"
  | invalidArgument => "Invalid argument (os error 22)"
  | nameTooLong => "File name too long (os error 36)"
  | notEmpty => "Directory not empty (os error 39)"
  | nulByte => "file name contained an unexpected NUL byte"
  | notText => "stream did not contain valid UTF-8"

def atPath (e : SystemError) (path : Path) : FsError :=
  match e with
  | noEntry => .notFound path
  | e => .io path e.message

end SystemError

/-- The files, the current directory, and the warnings given so far. -/
structure Disk where
  tree : FileTree Content
  current : Key
  warnings : List Warning
  deriving Repr

namespace Disk

/-! ## Walking a path -/

/-- Bytes of the longest name. -/
def nameLimit : Nat := 255

/-- Bytes of the longest path. -/
def pathLimit : Nat := 4095

/-- One segment further from a place. Only a directory leads anywhere, even to itself. -/
def step (tree : FileTree Content) (place : Key) (segment : List Char) : Except SystemError Key :=
  let name := String.ofList segment
  if !tree.isDirectory place then .error .notDirectory
  else if name = "" ∨ name = "." then .ok place
  else if name = ".." then .ok place.dropLast
  else if nameLimit < name.utf8ByteSize then .error .nameTooLong
  else if (tree.get? (place ++ [name])).isSome then .ok (place ++ [name])
  else .error .noEntry

def origin (d : Disk) (path : Path) : Key := if path.isAbsolute then [] else d.current

/-- Refuses texts that are no path. -/
def checked (path : Path) : Except SystemError (List (List Char)) :=
  if path.text.toList.contains '\x00' then .error .nulByte
  else if path.text = "" then .error .noEntry
  else if pathLimit < path.text.utf8ByteSize then .error .nameTooLong
  else .ok path.segments

/-- The place that a path leads to, which is there. -/
def walk (d : Disk) (path : Path) : Except SystemError Key := do
  (← checked path).foldlM (step d.tree) (d.origin path)

/-- The directory above a path's last segment, that segment, and whether a slash follows it. The
segment is absent for the root. -/
def walkToLast (d : Disk) (path : Path) : Except SystemError (Key × Option String × Bool) := do
  let segments ← checked path
  let trimmed := Text.dropEndWhile (· = []) segments
  match trimmed.getLast? with
  | none => return ([], none, true)
  | some last =>
    let place ← trimmed.dropLast.foldlM (step d.tree) (d.origin path)
    if !d.tree.isDirectory place then throw .notDirectory
    return (place, some (String.ofList last), trimmed.length < segments.length)

/-! ## System calls -/

def isDirectoryAt (d : Disk) (path : Path) : Bool :=
  match d.walk path with
  | .ok place => d.tree.isDirectory place
  | .error _ => false

def makeOne (d : Disk) (path : Path) : Except SystemError (FileTree Content) := do
  match ← d.walkToLast path with
  | (place, some name, _) =>
    if name = "." ∨ name = ".." then throw .fileExists
    else if nameLimit < name.utf8ByteSize then throw .nameTooLong
    else if (d.tree.get? (place ++ [name])).isSome then throw .fileExists
    else return d.tree.set (place ++ [name]) .directory
  | (_, none, _) => throw .fileExists

def makeIfNeeded (d : Disk) (path : Path) : Except SystemError Unit × Disk :=
  match d.makeOne path with
  | .ok tree => (.ok (), { d with tree := tree })
  | .error e => (if d.isDirectoryAt path then .ok () else .error e, d)

/-- Makes a directory; if something above it is missing, that is made first. -/
def makeAll (d : Disk) (path : Path) : List Path → Except SystemError Unit × Disk
  | [] => if path.text = "" then (.ok (), d) else d.makeIfNeeded path
  | parent :: above =>
    if path.text = "" then (.ok (), d)
    else
      match d.makeOne path with
      | .error .noEntry =>
        match d.makeAll parent above with
        | (.ok _, d) => d.makeIfNeeded path
        | failed => failed
      | _ => d.makeIfNeeded path

/-- Puts a file in the place of a path that is no directory. A NUL byte in the path is an argument
that renaming refuses. -/
def renameTo (d : Disk) (path : Path) (content : Content) : Except SystemError (FileTree Content) := do
  if path.text.toList.contains '\x00' then throw .invalidArgument
  match ← d.walkToLast path with
  | (place, some name, slash) =>
    if name = "." ∨ name = ".." then throw .busy
    else if nameLimit < name.utf8ByteSize then throw .nameTooLong
    else if slash then throw .notDirectory
    else if d.tree.isDirectory (place ++ [name]) then throw .isDirectory
    else return d.tree.set (place ++ [name]) (.file content)
  | (_, none, _) => throw .busy

/-- Removes everything below a directory, and then the directory itself. -/
def removeAll (d : Disk) (path : Path) : Except SystemError Unit × Disk :=
  match d.walk path with
  | .error e => (.error e, d)
  | .ok place =>
    if !d.tree.isDirectory place then (.error .notDirectory, d)
    else
      let emptied := { d with tree := (d.tree.remove place).mkdirs place }
      match emptied.walkToLast path with
      | .ok (_, some ".", _) => (.error .invalidArgument, emptied)
      | .ok (_, some "..", _) => (.error .notEmpty, emptied)
      | .ok (_, some _, _) => (.ok (), { d with tree := d.tree.remove place })
      | .ok (_, none, _) => (.error .busy, emptied)
      | .error .noEntry => (.ok (), emptied)
      | .error e => (.error e, emptied)

/-! ## The workspace -/

def readFile (d : Disk) (path : Path) : Except FsError String :=
  match d.walk path with
  | .error e => .error (e.atPath path)
  | .ok place =>
    match d.tree.get? place with
    | some (.file (.text s)) => .ok s
    | some (.file (.bytes _)) => .error (SystemError.notText.atPath path)
    | some .directory => .error (SystemError.isDirectory.atPath path)
    | none => .error (SystemError.noEntry.atPath path)

/-- The directory that a file is written to first. -/
def writeDirectory (path : Path) : Path :=
  match path.parent with
  | some dir => if dir.text = "" then ⟨"."⟩ else dir
  | none => ⟨"."⟩

def createDirectory (d : Disk) (path : Path) : Except FsError Unit × Disk :=
  let (result, d) := d.makeAll path path.ancestors.tail
  (result.mapError (·.atPath path), d)

def writeFile (d : Disk) (path : Path) (text : String) : Except FsError Unit × Disk :=
  match d.createDirectory (writeDirectory path) with
  | (.error e, d) => (.error e, d)
  | (.ok _, d) =>
    match d.renameTo path (.text text) with
    | .ok tree => (.ok (), { d with tree := tree })
    | .error e => (.error (e.atPath path), d)

def list (d : Disk) (path : Path) : Except FsError (List Path) :=
  match d.walk path with
  | .error e => .error (e.atPath path)
  | .ok place =>
    if d.tree.isDirectory place then .ok ((d.tree.children place).map fun n => path.join ⟨n⟩)
    else .error (SystemError.notDirectory.atPath path)

instance : Workspace (StateM Disk) where
  read path := fun d => (d.readFile path, d)
  write path text := fun d => d.writeFile path text
  isPresent path := fun d => ((d.walk path).isOk, d)
  isDirectory path := fun d => (d.isDirectoryAt path, d)
  list path := fun d => (d.list path, d)
  createDirectory path := fun d => d.createDirectory path
  removeDirectory path := fun d =>
    let (result, d) := d.removeAll path
    (result.mapError (·.atPath path), d)
  warn w := fun d => ((), { d with warnings := d.warnings ++ [w] })

end Disk
end Apportion
