import Apportion.Json

/-!
Writing JSON, either without any blanks or with one item per line and two blanks per level. Only
the quote, the backslash and control characters below U+0020 are escaped.
-/
namespace Apportion.Json

def hexDigit (n : Nat) : Char := if n < 10 then Char.ofNat (48 + n) else Char.ofNat (87 + n)

def escapeChar (c : Char) : List Char :=
  match c with
  | '"' => ['\\', '"']
  | '\\' => ['\\', '\\']
  | '\x08' => ['\\', 'b']
  | '\x0c' => ['\\', 'f']
  | '\n' => ['\\', 'n']
  | '\r' => ['\\', 'r']
  | '\t' => ['\\', 't']
  | c =>
    if c.toNat < 0x20 then ['\\', 'u', '0', '0', hexDigit (c.toNat / 16), hexDigit (c.toNat % 16)]
    else [c]

def quote (s : List Char) : List Char := '"' :: s.flatMap escapeChar ++ ['"']

/-- A string that stands for no text is written as `null`. -/
def printText : Option String → List Char
  | some s => quote s.toList
  | none => "null".toList

/-- An integer by its digits; any other number as its mantissa and a power of ten. -/
def printNumeral (n : Numeral) : List Char :=
  (if n.negative then ['-'] else []) ++ Nat.toDigits 10 n.mantissa ++
  (if n.isInteger then []
   else 'e' :: (if n.scale < 0 then ['-'] else []) ++ Nat.toDigits 10 n.scale.natAbs)

/-! ## Without blanks -/

mutual

def printCompact : Json → List Char
  | .null => "null".toList
  | .bool true => "true".toList
  | .bool false => "false".toList
  | .number n => printNumeral n
  | .string text => printText text
  | .array items => '[' :: printItems items ++ [']']
  | .object fields => '\x7b' :: printFields fields ++ ['\x7d']

def printItems : List Json → List Char
  | [] => []
  | [item] => printCompact item
  | item :: items => printCompact item ++ ',' :: printItems items

def printFields : List (Option String × Json) → List Char
  | [] => []
  | [(key, value)] => printText key ++ ':' :: printCompact value
  | (key, value) :: fields => printText key ++ ':' :: printCompact value ++ ',' :: printFields fields

end

/-- The value on one line without blanks. -/
def compact (j : Json) : String := String.ofList (printCompact j)

/-! ## One item per line -/

def newLine (level : Nat) : List Char := '\n' :: List.replicate (2 * level) ' '

mutual

def printPretty (level : Nat) : Json → List Char
  | .null => "null".toList
  | .bool true => "true".toList
  | .bool false => "false".toList
  | .number n => printNumeral n
  | .string text => printText text
  | .array [] => "[]".toList
  | .array (item :: items) =>
    '[' :: newLine (level + 1) ++ prettyItems (level + 1) (item :: items) ++ newLine level ++ [']']
  | .object [] => ['\x7b', '\x7d']
  | .object (field :: fields) =>
    '\x7b' :: newLine (level + 1) ++ prettyFields (level + 1) (field :: fields) ++ newLine level ++
      ['\x7d']

def prettyItems (level : Nat) : List Json → List Char
  | [] => []
  | [item] => printPretty level item
  | item :: items => printPretty level item ++ ',' :: newLine level ++ prettyItems level items

def prettyFields (level : Nat) : List (Option String × Json) → List Char
  | [] => []
  | [(key, value)] => printText key ++ ':' :: ' ' :: printPretty level value
  | (key, value) :: fields =>
    printText key ++ ':' :: ' ' :: printPretty level value ++ ',' :: newLine level ++
      prettyFields level fields

end

/-- The value over several lines; empty arrays and objects stay on one. -/
def pretty (j : Json) : String := String.ofList (printPretty 0 j)

end Apportion.Json
