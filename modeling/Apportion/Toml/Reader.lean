import Apportion.Toml.Scalar
import Apportion.Toml.Table

/-!
Reading TOML 1.0 documents: lines with a key and a value, headers of tables and of arrays of tables,
and comments. Arrays, inline tables and dotted keys may be nested below a fixed depth.
-/
namespace Apportion.Toml

/-- Arrays and inline tables within each other, and parts of a dotted key, stay below this. -/
def depthLimit : Nat := 80

/-! ## Keys -/

def isBareKeyChar (c : Char) : Bool := c.isAlphanum || c == '_' || c == '-'

/-- A bare key or a string on one line. -/
def scanSimpleKey (s : List Char) : Option (String × List Char) :=
  match s with
  | '"' :: rest => (scanBasic (rest.length + 1) rest).map fun (key, rest) => (String.ofList key, rest)
  | '\'' :: rest => (scanLiteral rest).map fun (key, rest) => (String.ofList key, rest)
  | _ =>
    match s.takeWhile isBareKeyChar with
    | [] => none
    | key => some (String.ofList key, s.dropWhile isBareKeyChar)

/-- Keys with dots between them, spaces around each. -/
def scanKeys (fuel : Nat) (s : List Char) : Option (List String × List Char) :=
  match fuel with
  | 0 => none
  | fuel + 1 => do
    let (key, rest) ← scanSimpleKey (skipSpaces s)
    match skipSpaces rest with
    | '.' :: rest =>
      let (keys, rest) ← scanKeys fuel rest
      some (key :: keys, rest)
    | rest => some ([key], rest)

/-- A dotted key of fewer parts than the limit. -/
def scanKey (s : List Char) : Option (List String × List Char) :=
  (scanKeys (s.length + 1) s).filter fun (keys, _) => keys.length < depthLimit

/-! ## Values -/

/-- Past blanks, line ends and comments. -/
def skipGap (fuel : Nat) (s : List Char) : List Char :=
  match fuel with
  | 0 => s
  | fuel + 1 =>
    match newline? (skipComment (skipSpaces s)) with
    | some rest => skipGap fuel rest
    | none => skipComment (skipSpaces s)

def skipBlank (s : List Char) : List Char := skipGap (s.length + 1) s

/-- What was read in front of `rest`. -/
def textBefore (s rest : List Char) : String := String.ofList (s.take (s.length - rest.length))

def scanPlain (s : List Char) : Option (Toml × List Char) :=
  match skipDateTime s with
  | some rest => some (.datetime (textBefore s rest), rest)
  | none =>
    match skipFloat s with
    | some rest => some (.float (textBefore s rest), rest)
    | none => (scanInteger s).map fun (n, rest) => (.integer n, rest)

mutual

/-- A value at the front of the text, within `depth` arrays and inline tables. Each call spends one
unit of `fuel`; the length of the text is enough. -/
def scanValue (fuel depth : Nat) (s : List Char) : Option (Toml × List Char) :=
  match fuel with
  | 0 => none
  | fuel + 1 =>
    match s with
    | '[' :: rest =>
      if depth + 1 < depthLimit then
        (scanItems fuel (depth + 1) rest).map fun (items, rest) => (.array items, rest)
      else none
    | '\x7b' :: rest =>
      if depth + 1 < depthLimit then
        match skipSpaces rest with
        | '\x7d' :: rest => some (.table [], rest)
        | rest =>
          (scanInline fuel (depth + 1) [] rest).map fun (es, rest) => (.table (entriesToToml es), rest)
      else none
    | '"' :: _ | '\'' :: _ => (scanString s).map fun (text, rest) => (.string text, rest)
    | 't' :: 'r' :: 'u' :: 'e' :: rest => some (.boolean true, rest)
    | 'f' :: 'a' :: 'l' :: 's' :: 'e' :: rest => some (.boolean false, rest)
    | _ => scanPlain s

/-- The items of an array up to its closing bracket, behind which a comma may stand. -/
def scanItems (fuel depth : Nat) (s : List Char) : Option (List Toml × List Char) :=
  match fuel with
  | 0 => none
  | fuel + 1 =>
    match skipBlank s with
    | ']' :: rest => some ([], rest)
    | s =>
      match scanValue fuel depth s with
      | none => none
      | some (item, rest) =>
        match skipBlank rest with
        | ']' :: rest => some ([item], rest)
        | ',' :: rest => (scanItems fuel depth rest).map fun (items, rest) => (item :: items, rest)
        | _ => none

/-- The entries of an inline table up to its closing brace, at least one, all on one line. -/
def scanInline (fuel depth : Nat) (es : Entries) (s : List Char) : Option (Entries × List Char) :=
  match fuel with
  | 0 => none
  | fuel + 1 =>
    match scanKey s with
    | some (keys, '=' :: rest) =>
      match scanValue fuel depth (skipSpaces rest), keys.getLast? with
      | some (value, rest), some key =>
        match es.assign none keys.dropLast key value, skipSpaces rest with
        | some es, '\x7d' :: rest => some (es, rest)
        | some es, ',' :: rest => scanInline fuel depth es rest
        | _, _ => none
      | _, _ => none
    | _ => none

end

/-! ## Documents -/

def scanHeader (close s : List Char) : Option (List String × List Char) := do
  let (keys, rest) ← scanKey s
  if close.isPrefixOf rest then some (keys, ← lineEnd? (rest.drop close.length)) else none

def scanAssignment (d : Draft) (s : List Char) : Option (Draft × List Char) := do
  let (keys, rest) ← scanKey s
  let (value, rest) ← scanValue (2 * s.length + 2) 0 (skipSpaces (← expect '=' rest))
  let d ← d.assign keys.dropLast (← keys.getLast?) value
  return (d, ← lineEnd? rest)

def scanExpression (d : Draft) (s : List Char) : Option (Draft × List Char) := do
  match s with
  | '[' :: '[' :: rest =>
    let (keys, rest) ← scanHeader [']', ']'] rest
    return (← d.openArray keys, rest)
  | '[' :: rest =>
    let (keys, rest) ← scanHeader [']'] rest
    return (← d.openTable keys, rest)
  | _ => scanAssignment d s

def scanLines (fuel : Nat) (d : Draft) (s : List Char) : Option Draft :=
  match fuel with
  | 0 => none
  | fuel + 1 =>
    match skipBlank s with
    | [] => some d
    | s =>
      match scanExpression d s with
      | some (d, rest) => scanLines fuel d rest
      | none => none

/-- The entries of a document. A byte order mark in front of it counts for nothing. -/
def read (text : String) : Option (List (String × Toml)) := do
  let s := match text.toList with
    | '\ufeff' :: rest => rest
    | s => s
  let d ← scanLines (s.length + 1) Draft.begin s
  return entriesToToml (← d.close)

end Apportion.Toml
