import Apportion.CommandLine.LogFilter
import Apportion.CommandLine.Run
import Apportion.Workspace.Disk

/-!
The program on the real disk. Files are written beside their destination and renamed into place.
-/
namespace Apportion.Disk.Real

/-- The operating system's words for an error with its number. -/
def describe : IO.Error → String
  | .alreadyExists _ n d | .invalidArgument _ n d | .permissionDenied _ n d
  | .resourceExhausted _ n d | .inappropriateType _ n d | .noSuchThing _ n d
  | .otherError n d | .resourceBusy n d | .resourceVanished n d | .unsupportedOperation n d
  | .hardwareFault n d | .unsatisfiedConstraints n d | .illegalOperation n d | .protocolError n d
  | .timeExpired n d | .interrupted _ n d | .noFileOrDirectory _ n d => s!"{d} (os error {n})"
  | .unexpectedEof => "unexpected end of file"
  | .userError text => text

def failure (path : Path) : IO.Error → FsError
  | .noFileOrDirectory .. => .notFound path
  | .permissionDenied .. => .permissionDenied path
  | e => .io path (describe e)

def hasNul (path : Path) : Bool := path.text.toList.contains '\x00'

/-- The result of an action on a path. -/
def attempt {α : Type} (path : Path) (action : IO α) : IO (Except FsError α) := do
  if hasNul path then return .error (SystemError.nulByte.atPath path)
  match ← action.toBaseIO with
  | .ok value => return .ok value
  | .error e => return .error (failure path e)

def read (path : Path) : IO (Except FsError String) := do
  match ← attempt path (IO.FS.readBinFile path.text) with
  | .error e => return .error e
  | .ok bytes =>
    match String.fromUTF8? bytes with
    | some text => return .ok text
    | none => return .error (SystemError.notText.atPath path)

def above (path : Path) : Path := (path.parent.filter fun p => p.text != "").getD ⟨"."⟩

/-- Creating nothing succeeds. -/
def createDirectory (path : Path) : IO (Except FsError Unit) :=
  if path.text = "" then return .ok () else attempt path (IO.FS.createDirAll path.text)

def write (path : Path) (text : String) : IO (Except FsError Unit) := do
  match ← createDirectory (above path) with
  | .error e => return .error e
  | .ok _ =>
    if hasNul path then return .error (SystemError.invalidArgument.atPath path)
    let draft := (above path).join ⟨s!".tmp{← IO.monoNanosNow}"⟩
    match ← attempt draft (IO.FS.writeFile draft.text text) with
    | .error e => return .error e
    | .ok _ =>
      let renamed ← attempt path (IO.FS.rename draft.text path.text)
      if !renamed.isOk then
        let _ ← attempt draft (IO.FS.removeFile draft.text)
      return renamed

def isPresent (path : Path) : IO Bool := do
  if path.text = "" || hasNul path then return false
  ((← IO.currentDir) / path.text).pathExists

def isDirectory (path : Path) : IO Bool := do
  if path.text = "" || hasNul path then return false
  ((← IO.currentDir) / path.text).isDir

def list (path : Path) : IO (Except FsError (List Path)) := do
  let directory := (← IO.currentDir) / path.text
  let entries ← attempt path directory.readDir
  return entries.map fun es =>
    ((es.toList.map (·.fileName)).mergeSort fun a b => a ≤ b).map fun name => path.join ⟨name⟩

end Apportion.Disk.Real

namespace Apportion

/-- The real disk, with warnings on the standard error where the filter lets them through. -/
instance : Workspace (ReaderT LogFilter IO) where
  read path := fun _ => Disk.Real.read path
  write path text := fun _ => Disk.Real.write path text
  isPresent path := fun _ => Disk.Real.isPresent path
  isDirectory path := fun _ => Disk.Real.isDirectory path
  list path := fun _ => Disk.Real.list path
  createDirectory path := fun _ => Disk.Real.createDirectory path
  removeDirectory path := fun _ => Disk.Real.attempt path (IO.FS.removeDirAll path.text)
  warn w := fun filter => if filter.shows w then IO.eprintln s!"WARN {w.message}" else pure ()

end Apportion

open Apportion in
def main (arguments : List String) : IO UInt32 := do
  let names := Settings.variableNames ++ LogFilter.variableNames
  let values ← names.mapM fun name => do return (name, ← IO.getEnv name)
  let env : Settings.Environment := fun name => (values.lookup name).join
  let current : Path := ⟨(← IO.currentDir).toString⟩
  let outcome ← (CommandLine.run (m := ReaderT LogFilter IO) env current arguments).run
    (LogFilter.ofEnvironment env)
  IO.print outcome.output
  if let some text := outcome.complaint? then IO.eprint text
  return outcome.code
