import Apportion.Json
import Apportion.Text.Character

/-!
The scalars of TOML 1.0: strings of four kinds, integers of four bases, floats, dates and times. Each
reader takes a text and gives the value at its front and what follows it.
-/
namespace Apportion.Toml
open Text

/-! ## Lines and characters -/

def isSpace (c : Char) : Bool := c == ' ' || c == '\t'

def skipSpaces (s : List Char) : List Char := s.dropWhile isSpace

/-- What follows a line end at the front. -/
def newline? : List Char → Option (List Char)
  | '\n' :: rest => some rest
  | '\r' :: '\n' :: rest => some rest
  | _ => none

/-- Characters that may stand in a line: no controls but the tab. -/
def isPrintable (c : Char) : Bool := c == '\t' || (0x20 ≤ c.toNat && c.toNat != 0x7F)

/-- What follows a comment's text; a line without a comment stays as it is. -/
def skipComment : List Char → List Char
  | '#' :: rest => rest.dropWhile isPrintable
  | s => s

/-- Past the blank rest of a line, a comment included. -/
def lineEnd? (s : List Char) : Option (List Char) :=
  match skipComment (skipSpaces s) with
  | [] => some []
  | rest => newline? rest

/-! ## Strings -/

/-- The character whose code point is written with `count` hexadecimal digits. -/
def scanCodePoint (count : Nat) (s : List Char) : Option (Char × List Char) := do
  let digits ← (s.take count).mapM hexDigit?
  if digits.length ≠ count then none
  let n := digits.foldl (fun n d => 16 * n + d) 0
  if n.isValidChar then some (Char.ofNat n, s.drop count) else none

/-- The character that an escape stands for, from behind its backslash. -/
def scanEscape : List Char → Option (Char × List Char)
  | 'b' :: rest => some ('\x08', rest)
  | 't' :: rest => some ('\t', rest)
  | 'n' :: rest => some ('\n', rest)
  | 'f' :: rest => some ('\x0c', rest)
  | 'r' :: rest => some ('\r', rest)
  | '"' :: rest => some ('"', rest)
  | '\\' :: rest => some ('\\', rest)
  | 'u' :: rest => scanCodePoint 4 rest
  | 'U' :: rest => scanCodePoint 8 rest
  | _ => none

def scanBasic (fuel : Nat) (s : List Char) : Option (List Char × List Char) :=
  match fuel, s with
  | _, '"' :: rest => some ([], rest)
  | fuel + 1, '\\' :: rest => do
    let (c, rest) ← scanEscape rest
    let (cs, rest) ← scanBasic fuel rest
    some (c :: cs, rest)
  | fuel + 1, c :: rest => do
    if !isPrintable c then none
    let (cs, rest) ← scanBasic fuel rest
    some (c :: cs, rest)
  | _, _ => none

def scanLiteral (s : List Char) : Option (List Char × List Char) :=
  let text := s.takeWhile fun c => c != '\'' && isPrintable c
  match s.drop text.length with
  | '\'' :: rest => some (text, rest)
  | _ => none

/-- Quotes inside or at the end of a string over several lines: up to two belong to the text, three
end it, and so do the last three of four or five. -/
def quoteRun (quote : Char) (s : List Char) : Nat := (s.takeWhile (· == quote)).length

/-- Past spaces and line ends; a carriage return alone ends no line. -/
def skipLines : List Char → List Char
  | ' ' :: rest | '\t' :: rest | '\n' :: rest | '\r' :: '\n' :: rest => skipLines rest
  | s => s

/-- What follows a backslash at the end of a line, and all spaces and line ends after it. -/
def joinLines? (s : List Char) : Option (List Char) := (newline? (skipSpaces s)).map skipLines

/-- A string over several lines, from behind its opening quotes. Line ends count as line feeds. -/
def scanLong (quote : Char) (escapes : Bool) (fuel : Nat) (s : List Char) :
    Option (List Char × List Char) :=
  match fuel with
  | 0 => none
  | fuel + 1 =>
    let prepend (c : Char) (rest : List Char) : Option (List Char × List Char) :=
      (scanLong quote escapes fuel rest).map fun (cs, rest) => (c :: cs, rest)
    let quotes := quoteRun quote s
    if 3 ≤ quotes then
      let extra := min (quotes - 3) 2
      some (List.replicate extra quote, s.drop (extra + 3))
    else
      match s with
      | [] => none
      | c :: rest =>
        match newline? s with
        | some rest => prepend '\n' rest
        | none =>
          if escapes && c == '\\' then
            match joinLines? rest with
            | some rest => scanLong quote escapes fuel rest
            | none =>
              match scanEscape rest with
              | some (c, rest) => prepend c rest
              | none => none
          else if isPrintable c then prepend c rest
          else none

/-- A string over several lines; a line end right behind the opening quotes is dropped. -/
def scanLongString (quote : Char) (escapes : Bool) (s : List Char) :
    Option (List Char × List Char) :=
  scanLong quote escapes (s.length + 1) ((newline? s).getD s)

def scanString (s : List Char) : Option (String × List Char) :=
  let result := match s with
    | '"' :: '"' :: '"' :: rest => scanLongString '"' true rest
    | '\'' :: '\'' :: '\'' :: rest => scanLongString '\'' false rest
    | '"' :: rest => scanBasic (rest.length + 1) rest
    | '\'' :: rest => scanLiteral rest
    | _ => none
  result.map fun (text, rest) => (String.ofList text, rest)

/-! ## Numbers -/

/-- Digits of a class with single underscores between them. -/
def scanRun (isDigit : Char → Bool) : List Char → List Char × List Char
  | c :: '_' :: d :: rest =>
    if isDigit c then
      if isDigit d then
        let (digits, after) := scanRun isDigit (d :: rest)
        (c :: digits, after)
      else ([c], '_' :: d :: rest)
    else ([], c :: '_' :: d :: rest)
  | c :: rest =>
    if isDigit c then
      let (digits, after) := scanRun isDigit rest
      (c :: digits, after)
    else ([], c :: rest)
  | [] => ([], [])

def scanSign : List Char → Bool × List Char
  | '-' :: rest => (true, rest)
  | '+' :: rest => (false, rest)
  | s => (false, s)

/-- Decimal digits, which start with a zero only if that is all. -/
def scanDecimal (s : List Char) : Option (List Char × List Char) :=
  match s with
  | '0' :: rest => some (['0'], rest)
  | _ =>
    match scanRun Char.isDigit s with
    | ([], _) => none
    | digits => some digits

def scanExponent (s : List Char) : Option (Int × List Char) :=
  match s with
  | 'e' :: rest | 'E' :: rest =>
    let (negative, rest) := scanSign rest
    match scanRun Char.isDigit rest with
    | ([], _) => none
    | (digits, rest) =>
      let n : Int := digitsValue 10 digits
      some (if negative then -n else n, rest)
  | _ => none

def scanFraction (s : List Char) : Option (List Char × List Char) :=
  match s with
  | '.' :: rest =>
    match scanRun Char.isDigit rest with
    | ([], _) => none
    | digits => some digits
  | _ => none

/-- What follows a float that is written with digits: it has a fraction or an exponent. A positive
one must not round to infinity. -/
def skipDecimalFloat (s : List Char) : Option (List Char) := do
  let (negative, s) := scanSign s
  let (whole, s) ← scanDecimal s
  let (places, exponent, rest) ←
    match scanFraction s with
    | some (places, s) =>
      match scanExponent s with
      | some (exponent, s) => some (places, exponent, s)
      | none => some (places, 0, s)
    | none => (scanExponent s).map fun (exponent, s) => ([], exponent, s)
  let value : Numeral :=
    ⟨negative, digitsValue 10 (whole ++ places), exponent - places.length, false⟩
  if negative || value.fitsDouble then some rest else none

/-- What follows a float, which may be a word for infinity or for no number. -/
def skipFloat (s : List Char) : Option (List Char) :=
  match skipDecimalFloat s with
  | some rest => some rest
  | none =>
    match (scanSign s).2 with
    | 'i' :: 'n' :: 'f' :: rest | 'n' :: 'a' :: 'n' :: rest => some rest
    | _ => none

/-- Digits of a base after its letter, without a sign. -/
def scanBased (base : Nat) (isDigit : Char → Bool) (s : List Char) : Option (Int × List Char) :=
  match scanRun isDigit s with
  | ([], _) => none
  | (digits, rest) => some (digitsValue base digits, rest)

/-- The least integer beyond a signed 64-bit word. -/
def integerLimit : Int := 0x8000000000000000

/-- An integer that fits a signed 64-bit word. -/
def scanInteger (s : List Char) : Option (Int × List Char) :=
  let result : Option (Int × List Char) := match s with
    | '0' :: 'x' :: rest => scanBased 16 (fun c => (hexDigit? c).isSome) rest
    | '0' :: 'o' :: rest => scanBased 8 (fun c => '0' ≤ c && c ≤ '7') rest
    | '0' :: 'b' :: rest => scanBased 2 (fun c => c == '0' || c == '1') rest
    | _ =>
      let (negative, s) := scanSign s
      (scanDecimal s).map fun (digits, rest) =>
        let n : Int := digitsValue 10 digits
        (if negative then -n else n, rest)
  result.filter fun (n, _) => -integerLimit ≤ n && n < integerLimit

/-! ## Dates and times -/

/-- A number of exactly `count` digits within bounds. -/
def scanFixed (count low high : Nat) (s : List Char) : Option (Nat × List Char) :=
  let digits := s.take count
  let n := digitsValue 10 digits
  if digits.length = count ∧ digits.all Char.isDigit ∧ low ≤ n ∧ n ≤ high then
    some (n, s.drop count)
  else none

def expect (c : Char) : List Char → Option (List Char)
  | d :: rest => if c = d then some rest else none
  | [] => none

def isLeapYear (year : Nat) : Bool := year % 4 == 0 && (year % 100 != 0 || year % 400 == 0)

def daysInMonth (year month : Nat) : Nat :=
  if month = 2 then (if isLeapYear year then 29 else 28)
  else if month = 4 ∨ month = 6 ∨ month = 9 ∨ month = 11 then 30
  else 31

def skipDate (s : List Char) : Option (List Char) := do
  let (year, s) ← scanFixed 4 0 9999 s
  let (month, s) ← scanFixed 2 1 12 (← expect '-' s)
  let (_, s) ← scanFixed 2 1 (daysInMonth year month) (← expect '-' s)
  return s

/-- A time of day; the second can be a leap second, and may have a fraction. -/
def skipTime (s : List Char) : Option (List Char) := do
  let (_, s) ← scanFixed 2 0 23 s
  let (_, s) ← scanFixed 2 0 59 (← expect ':' s)
  let (_, s) ← scanFixed 2 0 60 (← expect ':' s)
  match s with
  | '.' :: rest => if (rest.takeWhile Char.isDigit).isEmpty then none else some (rest.dropWhile Char.isDigit)
  | _ => some s

def skipOffset (s : List Char) : Option (List Char) :=
  match s with
  | 'Z' :: rest | 'z' :: rest => some rest
  | '+' :: rest | '-' :: rest => do
    let (_, s) ← scanFixed 2 0 23 rest
    let (_, s) ← scanFixed 2 0 59 (← expect ':' s)
    return s
  | _ => none

/-- What follows a date, a time, or a date with a time and perhaps an offset. -/
def skipDateTime (s : List Char) : Option (List Char) :=
  match skipDate s with
  | none => skipTime s
  | some rest =>
    match rest with
    | 'T' :: time | 't' :: time | ' ' :: time =>
      match skipTime time with
      | some after => some ((skipOffset after).getD after)
      | none => some rest
    | _ => some rest

end Apportion.Toml
