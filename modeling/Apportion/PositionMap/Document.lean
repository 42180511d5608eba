import Apportion.PositionMap.Mappings
import Apportion.Json.Reader
import Apportion.Json.Printer
import Apportion.Json.Decode

/-!
Position map documents of version 3 and their JSON form. A document is read from an object or from
an array of its seven fields, and written as an object without the optional fields that are absent.
-/
namespace Apportion

/-- A position map of version 3. The entries of `sources` and `sourcesContent` may be absent. -/
structure PositionMap where
  file : Option String
  sourceRoot : Option String
  sources : List (Option String)
  sourcesContent : Option (List (Option String))
  names : List String
  mappings : String
  deriving DecidableEq, Repr

namespace PositionMap

/-- What an index of a segment points into. -/
inductive Table
  | sources
  | names
  deriving DecidableEq, Repr

inductive MapError
  | invalidJson
  | unsupportedVersion (version : Nat)
  | invalidMappings (line : Nat) (fault : Fault)
  | indexOutOfRange (table : Table) (index : UInt32) (count : Nat)
  | sourceCount (expected actual : Nat)
  | emptyChain
  deriving DecidableEq, Repr

def Table.label : Table → String
  | sources => "source"
  | names => "name"

def MapError.message : MapError → String
  | invalidJson => "invalid JSON"
  | unsupportedVersion version => s!"unsupported source map version {version}"
  | invalidMappings line fault => s!"invalid mappings on line {line}: {fault.message}"
  | indexOutOfRange table index count =>
    s!"segment refers to {table.label} {index.toNat}, but only {count} exist"
  | sourceCount expected actual =>
    s!"replacement sources list has {actual} entries, map has {expected}"
  | emptyChain => "nothing to compose"

/-! ## Lines -/

/-- A document for decoded lines, with neither root nor contents. -/
def ofLines (file : Option String) (sources : List (Option String)) (names : List String)
    (lines : Lines) : PositionMap :=
  ⟨file, none, sources, none, names, encode lines⟩

def lines (m : PositionMap) : Except MapError Lines :=
  match decode m.mappings with
  | .ok lines => .ok lines
  | .error (line, fault) => .error (.invalidMappings line fault)

/-- The document with other sources, as many as before. They are taken as resolved, so the root is
dropped. -/
def withSources (m : PositionMap) (sources : List (Option String)) : Except MapError PositionMap :=
  if sources.length = m.sources.length then
    .ok { m with sources := sources, sourceRoot := none }
  else .error (.sourceCount m.sources.length sources.length)

/-! ## JSON -/

def fieldNames : List String :=
  ["version", "file", "sourceRoot", "sources", "sourcesContent", "names", "mappings"]

open Json in
/-- The version and the other fields of a document. -/
def fromJson (j : Json) : Option (Nat × PositionMap) :=
  match record fieldNames j with
  | some [version, file, sourceRoot, sources, sourcesContent, names, mappings] => do
    let texts := decodeList (decodeOptional decodeString)
    let version ← decodeField (decodeNat 0x100000000) none version
    let file ← decodeField (decodeOptional decodeString) (some none) file
    let sourceRoot ← decodeField (decodeOptional decodeString) (some none) sourceRoot
    let sources ← decodeField texts (some []) sources
    let sourcesContent ← decodeField (decodeOptional texts) (some none) sourcesContent
    let names ← decodeField (decodeList decodeString) (some []) names
    let mappings ← decodeField decodeString none mappings
    return (version, ⟨file, sourceRoot, sources, sourcesContent, names, mappings⟩)
  | _ => none

def parse (text : String) : Except MapError PositionMap :=
  match (Json.read text).bind fromJson with
  | none => .error .invalidJson
  | some (version, m) => if version = 3 then .ok m else .error (.unsupportedVersion version)

def textsToJson (texts : List (Option String)) : Json :=
  .array (texts.map (Json.ofOption Json.ofString))

/-- An optional field, left out if it is absent. -/
def optionalField {α : Type} (key : String) (f : α → Json) : Option α → List (String × Json)
  | some a => [(key, f a)]
  | none => []

open Json in
def toJson (m : PositionMap) : Json :=
  ofFields (
    [("version", ofNat 3)] ++ optionalField "file" ofString m.file ++
    optionalField "sourceRoot" ofString m.sourceRoot ++ [("sources", textsToJson m.sources)] ++
    optionalField "sourcesContent" textsToJson m.sourcesContent ++
    [("names", .array (m.names.map ofString)), ("mappings", ofString m.mappings)])

def render (m : PositionMap) : String := m.toJson.compact

end PositionMap
end Apportion
