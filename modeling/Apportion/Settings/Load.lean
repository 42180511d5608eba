import Apportion.Settings
import Apportion.Toml.Reader

/-!
Settings from a TOML file and from variables of the environment. Keys that mean nothing are reported
with the line that shows them first and with the known key that they come close to: how close is told by
the single insertions, deletions and replacements that turn one into the other, computed row by row, a
row holding the distances of one beginning of the first sequence to all beginnings of the second.
-/
namespace Apportion

/-! ## Edit distance -/

namespace EditDistance
variable {α : Type} [DecidableEq α]

/-- The cells of a row right of `left`, from the row above it, whose cells start above `left`. -/
def cells (a : α) (left : Nat) : List α → List Nat → List Nat
  | b :: bs, diagonal :: above :: row =>
    let cell := min (min (above + 1) (left + 1)) (diagonal + if a = b then 0 else 1)
    cell :: cells a cell bs (above :: row)
  | _, _ => []

/-- The row below a row, for one more element of the first sequence. -/
def nextRow (bs : List α) (row : List Nat) (a : α) : List Nat :=
  match row with
  | [] => []
  | first :: _ => (first + 1) :: cells a (first + 1) bs row

def firstRow (bs : List α) : List Nat := List.range (bs.length + 1)

def distance (as bs : List α) : Nat := ((as.foldl (nextRow bs) (firstRow bs)).getLast?).getD 0

def bytes (s : String) : List UInt8 := s.toList.flatMap String.utf8EncodeChar

end EditDistance

/-! ## Unknown keys -/

/-- A key that means nothing, the first line that shows it, and what may have been meant. -/
structure KeyWarning where
  key : String
  file : Path
  line : Option Nat
  suggestion : Option String
  deriving Repr

def KeyWarning.warning (w : KeyWarning) : Warning := .unknownKey w.key w.file w.line w.suggestion

namespace KeyWarning

/-- All keys that mean something, in the order in which they are suggested. -/
def knownKeys : List String :=
  ["emit", "out_dir", "report", "packages", "manifest_name", "export_extension", "builtin_prefix",
   "code_extensions", "entry_candidates", "resolve", "main_fields", "apply", "jobs", "ignore",
   "enabled", "template", "file"]

def distance (a b : String) : Nat :=
  EditDistance.distance (EditDistance.bytes a) (EditDistance.bytes b)

/-- The first of the known keys that are nearest. -/
def nearest (key : String) : List String → Option String
  | [] => none
  | k :: ks =>
    match nearest key ks with
    | some later => if distance key later < distance key k then some later else some k
    | none => some k

def suggest (key : String) : Option String :=
  (nearest key knownKeys).filter fun k => distance key k ≤ 2

def occursIn (needle : List Char) : List Char → Bool
  | [] => needle.isEmpty
  | c :: cs => needle.isPrefixOf (c :: cs) || occursIn needle cs

def lineOf (content needle : String) : Option Nat :=
  ((Text.lines content.toList).findIdx? (occursIn needle.toList)).map (· + 1)

/-- A key without all up to its last dot. -/
def lastPart (key : String) : String :=
  String.ofList (((Text.split '.' key.toList).getLast?).getD [])

def ofKey (file : Path) (content key : String) : KeyWarning :=
  let key := lastPart key
  ⟨key, file, lineOf content key, suggest key⟩

end KeyWarning

namespace Settings

/-! ## Sections -/

/-- The key that a date has if it is taken for a table. -/
def datetimeKey : String := "$__toml_private_datetime"

/-- The values of a section's fields in the order of their names, and its unknown keys. A section is
a table or an array of the fields in their order; a date is a table with one unknown key. -/
def sectionFields (names : List String) : Toml → Option (List (Option Toml) × List String)
  | .table entries =>
    some (names.map fun name => Toml.lookup name entries,
      (entries.map (·.1)).filter fun key => !names.contains key)
  | .array items =>
    some ((items.take names.length).map some ++ List.replicate (names.length - items.length) none, [])
  | .datetime _ => some (names.map fun _ => none, [datetimeKey])
  | _ => none

/-- A field's value, or what holds if it is left out. -/
def fieldOr {α : Type} (read : Toml → Option α) (default : α) : Option Toml → Option α
  | some v => read v
  | none => some default

def path? (v : Toml) : Option Path := v.string?.map (⟨·⟩)

def readEmit (v : Toml) : Option (EmitSettings × List String) := do
  let d := EmitSettings.standard
  match ← sectionFields ["out_dir", "report"] v with
  | ([outDir, report], unknown) =>
    return (⟨← fieldOr path? d.outDir outDir, ← fieldOr path? d.report report⟩, unknown)
  | _ => none

def readPackages (v : Toml) : Option (PackageSettings × List String) := do
  let d := PackageSettings.standard
  match ← sectionFields ["manifest_name", "export_extension", "builtin_prefix", "code_extensions",
      "entry_candidates"] v with
  | ([manifestName, exportExtension, builtinPrefix, codeExtensions, entryCandidates], unknown) =>
    return (⟨← fieldOr Toml.string? d.manifestName manifestName,
      ← fieldOr Toml.string? d.exportExtension exportExtension,
      ← fieldOr Toml.string? d.builtinPrefix builtinPrefix,
      ← fieldOr Toml.strings? d.codeExtensions codeExtensions,
      ← fieldOr Toml.strings? d.entryCandidates entryCandidates⟩, unknown)
  | _ => none

def readResolve (v : Toml) : Option (ResolveSettings × List String) := do
  match ← sectionFields ["main_fields"] v with
  | ([mainFields], unknown) =>
    return (⟨← fieldOr Toml.strings? ResolveSettings.standard.mainFields mainFields⟩, unknown)
  | _ => none

def readApply (v : Toml) : Option (ApplySettings × List String) := do
  match ← sectionFields ["jobs"] v with
  | ([jobs], unknown) => return (⟨← fieldOr Toml.nat? ApplySettings.standard.jobs jobs⟩, unknown)
  | _ => none

def readIgnore (v : Toml) : Option (IgnoreSettings × List String) := do
  let d := IgnoreSettings.standard
  match ← sectionFields ["enabled", "template", "file"] v with
  | ([enabled, template, file], unknown) =>
    return (⟨← fieldOr Toml.bool? d.enabled enabled, ← fieldOr path? d.template template,
      ← fieldOr path? d.file file⟩, unknown)
  | _ => none

/-- The settings with one entry of the document taken in, and the unknown keys of the entry. -/
def readEntry (s : Settings) (key : String) (v : Toml) : Option (Settings × List String) :=
  match key with
  | "emit" => (readEmit v).map fun (part, unknown) => ({ s with emit := part }, unknown)
  | "packages" => (readPackages v).map fun (part, unknown) => ({ s with packages := part }, unknown)
  | "resolve" => (readResolve v).map fun (part, unknown) => ({ s with resolve := part }, unknown)
  | "apply" => (readApply v).map fun (part, unknown) => ({ s with apply := part }, unknown)
  | "ignore" => (readIgnore v).map fun (part, unknown) => ({ s with ignore := part }, unknown)
  | key => some (s, [key])

/-- All entries of a document in their order. -/
def readEntries (s : Settings) : List (String × Toml) → Option (Settings × List String)
  | [] => some (s, [])
  | (key, v) :: rest => do
    let (s, unknown) ← s.readEntry key v
    let (s, later) ← s.readEntries rest
    return (s, unknown ++ later)

def parse (text : String) : Option (Settings × List String) := do
  standard.readEntries (← Toml.read text)

/-! ## The environment -/

/-- The value of each variable that is set. -/
abbrev Environment := String → Option String

def variableNames : List String :=
  ["PKGSPLIT_OUT_DIR", "PKGSPLIT_REPORT", "PKGSPLIT_JOBS", "PKGSPLIT_EXPORT_EXTENSION",
   "PKGSPLIT_MAIN_FIELDS", "PKGSPLIT_IGNORE_LIST"]

/-- Decimal digits after at most one plus sign, for a number below 2^64. -/
def countOf (s : List Char) : Option Nat :=
  let digits := match s with
    | '+' :: rest => rest
    | s => s
  if !digits.isEmpty && digits.all Char.isDigit then
    (some (Text.digitsValue 10 digits)).filter (· < 0x10000000000000000)
  else none

/-- The parts between commas, without blanks around them and without empty ones. -/
def listOf (s : String) : List String :=
  (((Text.split ',' s.toList).map Text.trim).filter (· ≠ [])).map String.ofList

/-- Everything but zero and the word for falsehood, in letters of either case, means yes. No other
letter has one of that word's letters as its lower case. -/
def isYes (s : String) : Bool := s.toList.map Char.toLower != "false".toList && s != "0"

/-- What a variable changes, if it is set. -/
def override {α : Type} (value : Option α) (change : α → Settings → Settings) (s : Settings) :
    Settings :=
  match value with
  | some v => change v s
  | none => s

/-- The settings with the variables' values in place of the file's. -/
def withEnvironment (env : Environment) (s : Settings) : Settings :=
  s |> override (env "PKGSPLIT_OUT_DIR") (fun v s => { s with emit := { s.emit with outDir := ⟨v⟩ } })
    |> override (env "PKGSPLIT_REPORT") (fun v s => { s with emit := { s.emit with report := ⟨v⟩ } })
    |> override ((env "PKGSPLIT_JOBS").bind fun v => countOf (Text.trim v.toList))
      (fun v s => { s with apply := ⟨v⟩ })
    |> override (env "PKGSPLIT_EXPORT_EXTENSION")
      (fun v s => { s with packages := { s.packages with exportExtension := v } })
    |> override (((env "PKGSPLIT_MAIN_FIELDS").map listOf).filter fun l => !l.isEmpty)
      (fun v s => { s with resolve := ⟨v⟩ })
    |> override (env "PKGSPLIT_IGNORE_LIST")
      (fun v s => { s with ignore := { s.ignore with enabled := isYes v } })

/-! ## Files -/

def fileName : String := "pkgsplit.toml"

variable {m : Type → Type} [Monad m] [Workspace m]

def load (file : Path) : m (Except BuildError (Settings × List KeyWarning)) := do
  match ← Workspace.read (m := m) file with
  | .error e => return .error (.io e.systemMessage)
  | .ok text =>
    match parse text with
    | none => return .error (.invalidSettings file)
    | some (settings, unknown) => return .ok (settings, unknown.map (KeyWarning.ofKey file text))

/-- The settings of a project: those of its file, if it has one, under those of the environment. -/
def loadProject (env : Environment) (root : Path) :
    m (Except BuildError (Settings × List KeyWarning)) := do
  let file := root.join ⟨fileName⟩
  let loaded ← if ← Resolver.isFile (m := m) file then load file else pure (.ok (standard, []))
  return loaded.map fun (settings, warnings) => (settings.withEnvironment env, warnings)

end Settings
end Apportion
