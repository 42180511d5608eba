import Apportion.Json
import Apportion.Text.Character

/-!
Reading JSON as RFC 8259 has it: one value with blanks around it, no comments, no trailing commas,
no raw control characters in strings. `read` gives the value of a whole text; `readText` asks
besides that every string stands for a text, that every number can be computed as a double and that
nesting stays below a limit.
-/
namespace Apportion.Json
open Text (hexDigit? digitsValue)

/-! ## Blanks, digits and words -/

def isBlank (c : Char) : Bool := c == ' ' || c == '\n' || c == '\t' || c == '\r'

def skipBlanks (s : List Char) : List Char := s.dropWhile isBlank

def afterWord (word s : List Char) : Option (List Char) :=
  if word.isPrefixOf s then some (s.drop word.length) else none

def scanDigits (s : List Char) : List Char × List Char :=
  (s.takeWhile Char.isDigit, s.dropWhile Char.isDigit)

/-! ## Numbers -/

/-- Digits without a needless leading zero. -/
def scanWhole (s : List Char) : Option (List Char × List Char) :=
  match s with
  | '0' :: rest => some (['0'], rest)
  | _ =>
    match scanDigits s with
    | ([], _) => none
    | digits => some digits

/-- An optional fraction: `none` inside if there is none. -/
def scanFraction (s : List Char) : Option (Option (List Char) × List Char) :=
  match s with
  | '.' :: rest =>
    match scanDigits rest with
    | ([], _) => none
    | (digits, rest) => some (some digits, rest)
  | _ => some (none, s)

def scanExponent (s : List Char) : Option (Option Int × List Char) :=
  let unsigned (sign : Int) (s : List Char) : Option (Option Int × List Char) :=
    match scanDigits s with
    | ([], _) => none
    | (digits, rest) => some (some (sign * digitsValue 10 digits), rest)
  match s with
  | 'e' :: '-' :: rest | 'E' :: '-' :: rest => unsigned (-1) rest
  | 'e' :: '+' :: rest | 'E' :: '+' :: rest => unsigned 1 rest
  | 'e' :: rest | 'E' :: rest => unsigned 1 rest
  | _ => some (none, s)

def scanNumber (s : List Char) : Option (Numeral × List Char) := do
  let (negative, s) := match s with
    | '-' :: rest => (true, rest)
    | _ => (false, s)
  let (whole, s) ← scanWhole s
  let (fraction, s) ← scanFraction s
  let (exponent, s) ← scanExponent s
  let places := fraction.getD []
  some (⟨negative, digitsValue 10 (whole ++ places), exponent.getD 0 - places.length,
    fraction.isNone && exponent.isNone⟩, s)

/-! ## Strings -/

/-- One element of a string: a character, or a code unit written as four hexadecimal digits. -/
inductive Piece
  | char (c : Char)
  | unit (n : Nat)
  deriving DecidableEq, Repr

def hexUnit (a b c d : Char) : Option Nat := do
  some ((((← hexDigit? a) * 16 + (← hexDigit? b)) * 16 + (← hexDigit? c)) * 16 + (← hexDigit? d))

def escapeValue : Char → Option Char
  | '"' => some '"'
  | '\\' => some '\\'
  | '/' => some '/'
  | 'b' => some '\x08'
  | 'f' => some '\x0c'
  | 'n' => some '\n'
  | 'r' => some '\r'
  | 't' => some '\t'
  | _ => none

/-- The pieces up to the closing quote, and what follows it. -/
def scanString : List Char → Option (List Piece × List Char)
  | '"' :: rest => some ([], rest)
  | '\\' :: 'u' :: a :: b :: c :: d :: rest => do
    let unit ← hexUnit a b c d
    let (pieces, rest) ← scanString rest
    some (.unit unit :: pieces, rest)
  | '\\' :: letter :: rest => do
    let value ← escapeValue letter
    let (pieces, rest) ← scanString rest
    some (.char value :: pieces, rest)
  | c :: rest => do
    if c.toNat < 0x20 then none
    let (pieces, rest) ← scanString rest
    some (.char c :: pieces, rest)
  | [] => none

def isLeading (n : Nat) : Bool := 0xD800 ≤ n && n < 0xDC00

def isTrailing (n : Nat) : Bool := 0xDC00 ≤ n && n < 0xE000

/-- The text of a string: a leading and a trailing surrogate next to each other make one character,
and a surrogate on its own makes none. -/
def assemble : List Piece → Option (List Char)
  | [] => some []
  | .char c :: rest => (assemble rest).map (c :: ·)
  | .unit n :: .unit m :: rest =>
    if isLeading n && isTrailing m then
      (assemble rest).map (Char.ofNat (0x10000 + (n - 0xD800) * 0x400 + (m - 0xDC00)) :: ·)
    else if isLeading n || isTrailing n then none
    else (assemble (.unit m :: rest)).map (Char.ofNat n :: ·)
  | .unit n :: rest =>
    if isLeading n || isTrailing n then none else (assemble rest).map (Char.ofNat n :: ·)

def scanText (s : List Char) : Option (Option String × List Char) :=
  (scanString s).map fun (pieces, rest) => ((assemble pieces).map String.ofList, rest)

/-! ## Values -/

mutual

/-- A value at the front of the text, blanks before it allowed. Each call spends one unit of
`fuel`; the length of the text is enough. -/
def scanValue (fuel : Nat) (s : List Char) : Option (Json × List Char) :=
  match fuel with
  | 0 => none
  | fuel + 1 =>
    match skipBlanks s with
    | '"' :: rest => (scanText rest).map fun (text, rest) => (.string text, rest)
    | '[' :: rest =>
      match skipBlanks rest with
      | ']' :: rest => some (.array [], rest)
      | rest => (scanItems fuel rest).map fun (items, rest) => (.array items, rest)
    | '\x7b' :: rest =>
      match skipBlanks rest with
      | '\x7d' :: rest => some (.object [], rest)
      | rest => (scanFields fuel rest).map fun (fields, rest) => (.object fields, rest)
    | 'n' :: rest => (afterWord "ull".toList rest).map fun rest => (.null, rest)
    | 't' :: rest => (afterWord "rue".toList rest).map fun rest => (.bool true, rest)
    | 'f' :: rest => (afterWord "alse".toList rest).map fun rest => (.bool false, rest)
    | s => (scanNumber s).map fun (n, rest) => (.number n, rest)

/-- The items of an array up to its closing bracket, at least one. -/
def scanItems (fuel : Nat) (s : List Char) : Option (List Json × List Char) :=
  match fuel with
  | 0 => none
  | fuel + 1 =>
    match scanValue fuel s with
    | none => none
    | some (item, rest) =>
      match skipBlanks rest with
      | ']' :: rest => some ([item], rest)
      | ',' :: rest => (scanItems fuel rest).map fun (items, rest) => (item :: items, rest)
      | _ => none

/-- The fields of an object up to its closing brace, at least one. -/
def scanFields (fuel : Nat) (s : List Char) : Option (List (Option String × Json) × List Char) :=
  match fuel with
  | 0 => none
  | fuel + 1 =>
    match skipBlanks s with
    | '"' :: rest =>
      match scanText rest with
      | none => none
      | some (key, rest) =>
        match skipBlanks rest with
        | ':' :: rest =>
          match scanValue fuel rest with
          | none => none
          | some (value, rest) =>
            match skipBlanks rest with
            | '\x7d' :: rest => some ([(key, value)], rest)
            | ',' :: rest =>
              (scanFields fuel rest).map fun (fields, rest) => ((key, value) :: fields, rest)
            | _ => none
        | _ => none
    | _ => none

end

def read (text : String) : Option Json :=
  let s := text.toList
  match scanValue (2 * s.length + 2) s with
  | some (value, rest) => if skipBlanks rest = [] then some value else none
  | none => none

/-! ## Checked values -/

mutual

/-- Every string is a text, every number is finite as a double, and at most `depth` arrays and objects are
open at one place. -/
def isPlain (depth : Nat) : Json → Bool
  | .null => true
  | .bool _ => true
  | .number n => n.hasFiniteProduct
  | .string text => text.isSome
  | .array items =>
    match depth with
    | 0 => false
    | depth + 1 => arePlainItems depth items
  | .object fields =>
    match depth with
    | 0 => false
    | depth + 1 => arePlainFields depth fields

def arePlainItems (depth : Nat) : List Json → Bool
  | [] => true
  | item :: items => isPlain depth item && arePlainItems depth items

def arePlainFields (depth : Nat) : List (Option String × Json) → Bool
  | [] => true
  | (key, value) :: fields => key.isSome && isPlain depth value && arePlainFields depth fields

end

/-- Open arrays and objects at one place of a value that is kept whole. -/
def maxDepth : Nat := 127

/-- The value of a text, every part of which is read. -/
def readPlain (text : String) : Option Json := (read text).filter (isPlain maxDepth)

end Apportion.Json
