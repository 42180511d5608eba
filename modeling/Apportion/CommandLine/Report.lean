import Apportion.Build

/-!
What the program prints: a result as lines of text or as JSON, changes as JSON, and an error with the
chain of its causes.
-/
namespace Apportion

/-! ## Changes -/

def TextEdit.toJson (e : TextEdit) : Json :=
  .ofFields [("range", .ofFields [("start", .ofNat e.range.start), ("end", .ofNat e.range.stop)]),
    ("replacement", .ofString e.replacement)]

def Path.toJson (p : Path) : Json := .ofString p.text

/-- A change as an object whose first field tells its kind. -/
def Change.toJson : Change → Json
  | createDirectory path =>
    .ofFields [("type", .ofString "create-directory"), ("path", path.toJson)]
  | writeManifest path content =>
    .ofFields [("type", .ofString "write-manifest"), ("path", path.toJson),
      ("content", .ofString content)]
  | editReferences artifact edits =>
    .ofFields [("type", .ofString "rewrite-references"), ("artifact", artifact.toJson),
      ("edits", .array (edits.map TextEdit.toJson))]
  | setSources map sources =>
    .ofFields [("type", .ofString "rewrite-position-map-sources"), ("map", map.toJson),
      ("sources", .array (sources.map (Json.ofOption Json.ofString)))]
  | move source target =>
    .ofFields [("type", .ofString "move-artifact"), ("from", source.toJson), ("to", target.toJson)]

def ChangeSet.toJson (s : ChangeSet) : Json := .array (s.changes.map Change.toJson)

/-! ## Results -/

def PackageSummary.toJson (p : PackageSummary) : Json :=
  .ofFields [("name", .ofString p.name), ("directory", p.directory.toJson),
    ("artifacts", .ofNat p.artifacts), ("entry_point", .bool p.entryPoint)]

def Summary.toJson (s : Summary) : Json :=
  .ofFields [("directories", .ofNat s.directories), ("manifests", .ofNat s.manifests),
    ("rewritten", .ofNat s.revised), ("composed_maps", .ofNat s.composed),
    ("copied", .ofNat s.copied)]

namespace BuildResult

def toJson (r : BuildResult) : Json :=
  .ofFields [("packages", .array (r.packages.map PackageSummary.toJson)),
    ("unassigned", .array (r.unassigned.map Path.toJson)),
    ("applied", Json.ofOption Summary.toJson r.applied),
    ("ignore_file", Json.ofOption Path.toJson r.ignoreFile)]

def packageLine (p : PackageSummary) : String :=
  s!"  {p.name} ({p.artifacts} artifact(s)) -> {p.directory.text}\n"

def describe (r : BuildResult) : String :=
  let verb := if r.isDryRun then "Would create" else "Created"
  let left := if r.unassigned.isEmpty then ""
    else s!"{r.unassigned.length} artifact(s) outside every module were left in place\n"
  let updated := match r.ignoreFile with
    | some path => s!"Updated {path.text}\n"
    | none => ""
  s!"{verb} {r.packages.length} package(s):\n" ++ String.join (r.packages.map packageLine) ++ left ++
    updated

end BuildResult

/-! ## Errors -/

namespace BuildError

/-- A text whose first line stands after a label and whose other lines start below its end. -/
def hang (label text : String) : List Char :=
  let pad := List.replicate label.length ' '
  label.toList ++ Text.join ('\n' :: pad) (Text.split '\n' text.toList)

/-- The causes with their numbers from `n` on. -/
def numbered (n : Nat) : List String → List Char
  | [] => []
  | cause :: causes => '\n' :: hang s!"    {n}: " cause ++ numbered (n + 1) causes

/-- The error under what was being done, with its causes; a single cause goes without a number. -/
def report (e : BuildError) (activity : String) : String :=
  let chain := match e.causes with
    | [] => '\n' :: hang "    " e.message
    | causes => numbered 0 (e.message :: causes)
  s!"Error: {activity}\n\nCaused by:" ++ String.ofList chain

end BuildError
end Apportion
