import Apportion.Artifact
import Apportion.Path.Relative
import Apportion.Json.Printer

/-!
Packages: what an emitted module becomes. Each module of the emitted tree gets the artifacts that
belong to it and a manifest with its entry point, if it has one, and the table of its exports.
-/
namespace Apportion

/-- A unit that is published on its own; paths are relative to the emission root. -/
inductive EmittedModule
  /-- A code file with its declaration and its position maps. -/
  | file (path : Path)
  /-- A directory with all below it, and perhaps an entry point. -/
  | directory (directory : Path) (entry : Option Path)
  deriving Repr

def EmittedModule.boundary : EmittedModule → Path
  | file path => path
  | directory dir _ => dir

/-! ## Manifests -/

/-- Public names and the files they lead to, in the order of the names. -/
abbrev ExportTable := List (String × String)

/-- The table with one more entry; an entry under the same name is replaced. -/
def ExportTable.insert (key value : String) : ExportTable → ExportTable
  | [] => [(key, value)]
  | (k, v) :: rest =>
    if key < k then (key, value) :: (k, v) :: rest
    else if key = k then (key, value) :: rest
    else (k, v) :: ExportTable.insert key value rest

def ExportTable.ofList (entries : List (String × String)) : ExportTable :=
  entries.foldl (fun table (key, value) => table.insert key value) []

/-- The file that a package as a whole stands for, and its declaration. -/
structure EntryPoint where
  main : String
  types : String
  deriving DecidableEq, Repr

structure Manifest where
  entryPoint : Option EntryPoint
  exports : ExportTable
  deriving DecidableEq, Repr

namespace Manifest

open Json in
def toJson (m : Manifest) : Json :=
  let exports := ofFields (m.exports.map fun (key, file) => (key, ofFields [("import", ofString file)]))
  let shared := [("sideEffects", .bool false), ("exports", exports)]
  match m.entryPoint with
  | some entry =>
    ofFields ([("type", ofString "module"), ("main", ofString entry.main),
      ("types", ofString entry.types), ("typings", ofString entry.types)] ++ shared)
  | none => ofFields shared

def render (m : Manifest) : String := m.toJson.pretty

end Manifest

/-! ## Packages -/

structure Package where
  name : String
  artifacts : List Artifact
  manifest : Manifest
  source : EmittedModule
  deriving Repr

def Package.contains (p : Package) (path : Path) : Bool := p.artifacts.any fun a => a.path == path

structure Partition where
  emitRoot : Path
  exportExtension : String
  deriving Repr

namespace Partition

def canonicalKey : String := "."

/-- The export of a code file at a path relative to its package. -/
def exportOf (p : Partition) (canonical : Option Path) (relative : Path) : String × String :=
  (if canonical.any (relative == ·) then canonicalKey else relative.specifier,
   (relative.withExtension p.exportExtension).specifier)

/-- The exports of the code files among the members, which come with their path in the package. -/
def exports (p : Partition) (canonical : Option Path) (members : List (Path × Artifact)) :
    ExportTable :=
  ExportTable.ofList ((members.filter fun (_, a) => a.isCode).map fun (relative, _) =>
    p.exportOf canonical relative)

def entryPoint (main : Path) : EntryPoint :=
  ⟨main.specifier, (main.withExtension ".d.ts").specifier⟩

/-- The paths of a code file, its declaration, and the position maps of both. -/
def related (p : Partition) (path : Path) : List Path :=
  let extension := path.extension
  [extension, extension ++ ".map", ".d.ts", ".d.ts.map"].map (p.emitRoot.join path).withExtension

def ofFile (p : Partition) (path : Path) (artifacts : List Artifact) : Package :=
  let members := artifacts.filter fun a => (p.related path).any (· == a.path)
  let main : Path := ⟨path.fileName.getD ""⟩
  { name := path.stem
    artifacts := members
    manifest :=
      ⟨some (entryPoint main),
       p.exports (some main) (members.map fun a => (⟨a.path.fileName.getD ""⟩, a))⟩
    source := .file path }

def ofDirectory (p : Partition) (directory : Path) (entry : Option Path)
    (artifacts : List Artifact) : Package :=
  let boundary := p.emitRoot.join directory
  let members := artifacts.filter fun a => a.path.startsWith boundary
  let inside := entry.map fun e => (e.stripStart directory).getD e
  { name := directory.fileName.getD ""
    artifacts := members
    manifest :=
      ⟨inside.map entryPoint,
       p.exports inside (members.filterMap fun a =>
        (a.path.stripStart boundary).map fun relative => (relative, a))⟩
    source := .directory directory entry }

/-- One package for each module, in the order of the modules. -/
def packages (p : Partition) (modules : List EmittedModule) (artifacts : List Artifact) :
    List Package :=
  modules.map fun
    | .file path => p.ofFile path artifacts
    | .directory directory entry => p.ofDirectory directory entry artifacts

end Partition
end Apportion
