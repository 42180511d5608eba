import Apportion.Settings.Load
import Apportion.Text.Character
import Apportion.Text.Offsets
import Apportion.Text.Pattern

/-!
Which warnings are shown. A filter is a list of directives between commas. A directive gives a level
to all records, or to those whose topic begins with its target and that have its field; of several
that fit a record, the closest one holds, and of equally close ones the last.
-/
namespace Apportion

/-- The topic under which a filter finds a warning. -/
def Warning.topic : Warning → String
  | unknownKey .. => "pkgsplit::commands::project"
  | rollback _ | directoryLeft .. => "pkgsplit::application::apply"
  | unassigned _ | packageLeft .. => "pkgsplit::application::build::use_case"

/-- The fields of a warning that a filter can ask for. -/
def Warning.fields : Warning → List String
  | unknownKey .. => ["message", "key", "file", "line"]
  | rollback _ | unassigned _ => ["message", "count"]
  | directoryLeft .. | packageLeft .. => ["message", "path", "error"]

inductive LogLevel
  | off
  | error
  | warn
  | info
  | debug
  | trace
  deriving DecidableEq, Repr

namespace LogLevel

def showsWarnings : LogLevel → Bool
  | off | error => false
  | _ => true

def ofNumber? : Nat → Option LogLevel
  | 0 => some off
  | 1 => some error
  | 2 => some warn
  | 3 => some info
  | 4 => some debug
  | 5 => some trace
  | _ => none

/-- A level by its name in letters of either case. -/
def ofName? (s : List Char) : Option LogLevel :=
  match String.ofList (s.map Char.toLower) with
  | "off" => some off
  | "error" => some error
  | "warn" => some warn
  | "info" => some info
  | "debug" => some debug
  | "trace" => some trace
  | _ => none

/-- A level by its number or its name. -/
def ofChars? (s : List Char) : Option LogLevel :=
  ((Settings.countOf s).bind ofNumber?) <|> ofName? s

end LogLevel

/-! ## Directives -/

structure LogDirective where
  /-- What topics begin with; absent for all topics. -/
  target : Option String
  /-- A field that records must have. -/
  field : Option String
  /-- Whether the directive is for records within certain spans only: it names a span, or asks for
  the value of a field. Warnings stand in no span. -/
  inSpan : Bool
  level : LogLevel
  deriving DecidableEq, Repr

namespace LogDirective

/-! ### Values of fields -/

/-- Digits with a point among them or not, and an exponent or not. -/
def isDecimal (s : List Char) : Bool :=
  let whole := s.takeWhile Char.isDigit
  let rest := s.drop whole.length
  let places := match rest with
    | '.' :: rest => rest.takeWhile Char.isDigit
    | _ => []
  let rest := match rest with
    | '.' :: rest => rest.drop places.length
    | rest => rest
  let exponent (s : List Char) : Bool := !s.isEmpty && s.all Char.isDigit
  (whole ≠ [] || places ≠ []) &&
    match rest with
    | [] => true
    | 'e' :: '+' :: rest | 'E' :: '+' :: rest | 'e' :: '-' :: rest | 'E' :: '-' :: rest => exponent rest
    | 'e' :: rest | 'E' :: rest => exponent rest
    | _ => false

/-- A decimal number, or a word for infinity or for no number, after a plus sign. -/
def isPlusNumber (s : List Char) : Bool :=
  match s with
  | '+' :: rest =>
    isDecimal rest ||
      ["inf", "infinity", "nan"].contains (String.ofList (rest.map Char.toLower))
  | _ => false

/-- A value is a number or a pattern. Numbers without a plus sign are patterns as well. -/
def isValue (s : List Char) : Bool := isPlusNumber s || Text.isPattern s

/-- The name of a field, and whether a value is asked for. The value ends at a second equals
sign. -/
def readField (s : List Char) : Option (String × Bool) :=
  let name := s.takeWhile (· ≠ '=')
  if s = [] then none
  else
    match s.drop name.length with
    | [] => some (String.ofList name, false)
    | _ :: value =>
      if isValue (value.takeWhile (· ≠ '=')) then some (String.ofList name, true) else none

/-! ### Reading -/

def starts (c : Char) : Bool := c = '[' || c = '-' || c = ':' || c = '_' || Text.isAlphanumeric c

/-- The bytes of a text from `start` up to `stop`. -/
def slice (s : List Char) (start stop : Nat) : Option (List Char) := do
  let (_, rest) ← Text.splitAtByte start s
  let (part, _) ← Text.splitAtByte (stop - start) rest
  return part

/-- The level of a directive whose scope ends before byte `stop` with `rest` behind it: everything,
unless an equals sign and a level follow. -/
def readLevel (s : List Char) (stop : Nat) (rest : List Char) : Option LogLevel :=
  match rest with
  | [] => some .trace
  | '=' :: _ =>
    match Text.splitAtByte (stop + 1) s with
    | some (_, []) => some .trace
    | some (_, level) => LogLevel.ofChars? level
    | none => none
  | _ => none

/-- A directive with brackets, from behind the opening one, which stands right before byte `start`.
In the brackets are the name of a span, a field in braces, or both. -/
def readBrackets (s : List Char) (target : Option String) (start : Nat) (rest : List Char) :
    Option LogDirective :=
  let name := rest.takeWhile fun c => c ≠ ']' && c ≠ '\x7b'
  let stop := start + Text.byteLength name
  match rest.drop name.length with
  | ']' :: rest => (readLevel s (stop + 1) rest).map fun level => ⟨target, none, true, level⟩
  | '\x7b' :: rest => do
    let field := rest.takeWhile (· ≠ '\x7d')
    let last := stop + 1 + Text.byteLength field
    let (key, hasValue) ← readField (← slice s (stop + 1) last)
    match rest.drop field.length with
    | '\x7d' :: ']' :: rest =>
      let level ← readLevel s (last + 2) rest
      return ⟨target, some key, name ≠ [] || hasValue, level⟩
    | _ => none
  | _ => none

/-- A directive is a level, or a scope that a level can follow. The scope is a target, something in
brackets, or both. Where the parts stand is found without the blanks around the directive, but they
are cut out at the same offsets of the text with its blanks. -/
def ofChars? (s : List Char) : Option LogDirective := do
  let bare := Text.trim s
  if !bare.head?.any starts then none
  let scope := bare.takeWhile fun c => c ≠ '[' && c ≠ '='
  let stop := Text.byteLength scope
  match bare.drop scope.length with
  | [] =>
    match LogLevel.ofChars? s with
    | some level => return ⟨none, none, false, level⟩
    | none => return ⟨some (String.ofList s), none, false, .trace⟩
  | '[' :: rest =>
    let target ← if scope = [] then some none else (slice s 0 stop).map (some ∘ String.ofList)
    readBrackets s target (stop + 1) rest
  | rest =>
    let level ← readLevel s stop rest
    return ⟨some (String.ofList (← slice s 0 stop)), none, false, level⟩

/-! ### Fitting -/

/-- How closely a directive tells its records: by the length of its target, then by whether it asks
for a field. -/
def weight (d : LogDirective) : Nat :=
  let target := match d.target with
    | some target => target.utf8ByteSize + 1
    | none => 0
  2 * target + if d.field.isSome then 1 else 0

/-- Whether the first directive is the closer one. Of two fields, the later one by name is. -/
def isCloser (d e : LogDirective) : Bool :=
  e.weight < d.weight || (e.weight == d.weight && e.field.getD "" < d.field.getD "")

def fits (d : LogDirective) (w : Warning) : Bool :=
  !d.inSpan && d.target.all (fun target => target.toList.isPrefixOf w.topic.toList) &&
    d.field.all w.fields.contains

end LogDirective

abbrev LogFilter := List LogDirective

namespace LogFilter

def all : LogFilter := [⟨none, none, false, .info⟩]

/-- The filter of a text; a text without directives lets errors through only. -/
def ofString? (s : String) : Option LogFilter :=
  match (Text.split ',' s.toList).filter (· ≠ []) with
  | [] => some [⟨none, none, false, .error⟩]
  | parts => parts.mapM LogDirective.ofChars?

def variableNames : List String := ["PKGSPLIT_LOG", "RUST_LOG"]

/-- The filter of the first variable that holds one. -/
def ofEnvironment (env : Settings.Environment) : LogFilter :=
  (variableNames.findSome? fun name => (env name).bind ofString?).getD all

/-- The later of two directives, unless the earlier one is closer. -/
def closest (earlier : Option LogDirective) (later : LogDirective) : Option LogDirective :=
  match earlier with
  | some d => if d.isCloser later then some d else some later
  | none => some later

def level (filter : LogFilter) (w : Warning) : LogLevel :=
  match (filter.filter (·.fits w)).foldl closest none with
  | some d => d.level
  | none => .off

def shows (filter : LogFilter) (w : Warning) : Bool := (filter.level w).showsWarnings

end LogFilter
end Apportion
