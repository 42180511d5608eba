import Apportion.Text.Character
import Apportion.Text.Split

/-!
Which texts are regular expressions. There are groups, classes with set operations, repetition by a
single sign, flags and escapes. What would need tables of Unicode is refused: classes for words,
digits and blanks, edges of words, and folding of cases. These can be had for ASCII, once a flag
turns Unicode off. Look-around, back-references and counted repetition are refused as well.
-/
namespace Apportion.Text.Pattern

/-! ## Flags -/

/-- The flags that decide what is allowed further on. -/
structure Mode where
  /-- Letters match in either case. -/
  fold : Bool
  /-- Blanks count for nothing, and neither does a line's rest from a number sign on. -/
  spaced : Bool
  unicode : Bool
  deriving DecidableEq, Repr

namespace Mode

def standard : Mode := ⟨false, false, true⟩

def set (on : Bool) (m : Mode) (flag : Char) : Mode :=
  match flag with
  | 'i' => { m with fold := on }
  | 'x' => { m with spaced := on }
  | 'u' => { m with unicode := on }
  | _ => m

def setAll (m : Mode) (flags : List Char) : Mode :=
  (flags.dropWhile (· ≠ '-')).foldl (set false) ((flags.takeWhile (· ≠ '-')).foldl (set true) m)

/-- Whether folding would need a table. -/
def needsTable (m : Mode) : Bool := m.fold && m.unicode

end Mode

/-- Whether flags are known and distinct, with at most one dash, which is not the last. -/
def areFlags (flags : List Char) : Bool :=
  flags.all "imsUuRx-".toList.contains && flags.eraseDups == flags && flags.getLast? != some '-'

/-- Flags, the colon or parenthesis that ends them, and what follows. -/
def scanFlags (s : List Char) : Option (List Char × Char × List Char) :=
  let flags := s.takeWhile fun c => c ≠ ':' && c ≠ ')'
  match s.drop flags.length with
  | close :: rest => if areFlags flags then some (flags, close, rest) else none
  | [] => none

/-! ## Blanks -/

/-- Past blanks and remarks, from inside a remark or outside. -/
def skipRemarks (inside : Bool) : List Char → List Char
  | [] => []
  | c :: rest =>
    if inside then skipRemarks (c ≠ '\n') rest
    else if c = '#' then skipRemarks true rest
    else if isBlank c then skipRemarks false rest
    else c :: rest

def Mode.skip (m : Mode) (s : List Char) : List Char := if m.spaced then skipRemarks false s else s

/-! ## Escapes -/

/-- What an escape stands for: a character, characters of a class, or a place between characters. -/
inductive Escape
  | char (c : Char)
  | members
  | place
  deriving DecidableEq, Repr

/-- Letters and digits have meanings of their own behind a backslash, and so have angle brackets. -/
def canBeEscaped (c : Char) : Bool := c.toNat < 128 && !c.isAlphanum && c ≠ '<' && c ≠ '>'

/-- A number of exactly `count` hexadecimal digits, after the value of those before them. -/
def scanHex (m : Mode) (count value : Nat) (s : List Char) : Option (Nat × List Char) :=
  match count, s with
  | 0, s => some (value, s)
  | count + 1, c :: rest => (hexDigit? c).bind fun d => scanHex m count (16 * value + d) (m.skip rest)
  | _ + 1, [] => none

def scanCodePoint (m : Mode) (count : Nat) (s : List Char) : Option (Escape × List Char) := do
  let (n, rest) ← scanHex m count 0 (m.skip s)
  if n.isValidChar then some (.char (Char.ofNat n), rest) else none

/-- An escape, from behind its backslash. Two hexadecimal digits write a byte if Unicode is off, and
a byte beyond ASCII is no text. -/
def scanEscape (m : Mode) (s : List Char) : Option (Escape × List Char) :=
  match s with
  | [] => none
  | c :: rest =>
    match c with
    | 'x' =>
      (scanCodePoint m 2 rest).filter fun
        | (.char c, _) => m.unicode || c.toNat < 128
        | _ => true
    | 'u' => scanCodePoint m 4 rest
    | 'U' => scanCodePoint m 8 rest
    | 'd' | 's' | 'w' => if m.unicode then none else some (.members, rest)
    | 'b' | 'B' | '<' | '>' => if m.unicode then none else some (.place, rest)
    | 'A' | 'z' => some (.place, rest)
    | 'a' => some (.char '\x07', rest)
    | 'f' => some (.char '\x0c', rest)
    | 'n' => some (.char '\n', rest)
    | 'r' => some (.char '\r', rest)
    | 't' => some (.char '\t', rest)
    | 'v' => some (.char '\x0b', rest)
    | c => if canBeEscaped c then some (.char c, rest) else none

/-! ## Classes -/

def classNames : List String :=
  ["alnum", "alpha", "ascii", "blank", "cntrl", "digit", "graph", "lower", "print", "punct", "space",
   "upper", "word", "xdigit"]

/-- What follows a named class, from behind its opening bracket. -/
def scanNamed (s : List Char) : Option (List Char) :=
  match s with
  | ':' :: rest =>
    let rest := match rest with
      | '^' :: rest => rest
      | rest => rest
    let name := rest.takeWhile (· ≠ ':')
    match rest.drop name.length with
    | ':' :: ']' :: after => if classNames.contains (String.ofList name) then some after else none
    | _ => none
  | _ => none

/-- Past dashes, which stand for themselves where a class begins. -/
def skipDashes (m : Mode) (fuel : Nat) (s : List Char) : List Char :=
  match fuel, s with
  | fuel + 1, '-' :: rest => skipDashes m fuel (m.skip rest)
  | _, s => s

/-- The inside of a class, from behind its opening bracket: past the sign that negates it, past
dashes, or past a closing bracket that is a member since it comes first. -/
def openClass (m : Mode) (s : List Char) : Option (List Char) :=
  let s := m.skip s
  let negated := s.head? = some '^'
  let s := if negated then m.skip (s.drop 1) else s
  if negated && !m.unicode then none
  else
    match s with
    | ']' :: rest => some rest
    | s => some (skipDashes m s.length s)

/-- A member, or none for an escape that brings several. -/
def scanMember (m : Mode) (s : List Char) : Option (Option Char × List Char) :=
  match s with
  | '\\' :: rest =>
    match scanEscape m rest with
    | some (.char c, rest) => some (some c, rest)
    | some (.members, rest) => some (none, rest)
    | _ => none
  | c :: rest => if m.unicode || c.toNat < 128 then some (some c, rest) else none
  | [] => none

/-- What follows a member or a range. A dash in front of another dash or of the closing bracket makes
no range. -/
def scanRange (m : Mode) (s : List Char) : Option (List Char) :=
  match scanMember m s with
  | none => none
  | some (first, rest) =>
    match m.skip rest with
    | '-' :: rest =>
      match m.skip rest with
      | ']' :: _ | '-' :: _ => some ('-' :: rest)
      | s =>
        match first, scanMember m s with
        | some low, some (some high, rest) => if low ≤ high then some rest else none
        | _, _ => none
    | rest => some rest

/-- What follows a class, from its inside on, in `depth` more classes. -/
def scanClass (m : Mode) (fuel depth : Nat) (s : List Char) : Option (List Char) :=
  match fuel with
  | 0 => none
  | fuel + 1 =>
    match m.skip s with
    | [] => none
    | ']' :: rest =>
      match depth with
      | 0 => some rest
      | depth + 1 => scanClass m fuel depth rest
    | '[' :: rest =>
      match scanNamed rest with
      | some rest => scanClass m fuel depth rest
      | none => (openClass m rest).bind (scanClass m fuel (depth + 1))
    | '&' :: '&' :: rest | '-' :: '-' :: rest | '~' :: '~' :: rest => scanClass m fuel depth rest
    | s => (scanRange m s).bind (scanClass m fuel depth)

/-! ## Groups and sequences -/

/-- A group's name, which must be new, and what follows the bracket behind it. -/
def scanName (names : List (List Char)) (s : List Char) : Option (List Char × List Char) :=
  let name := s.takeWhile (· ≠ '>')
  match name, s.drop name.length with
  | first :: others, _ :: rest =>
    if (first == '_' || (isAlphanumeric first && !first.isDigit)) &&
        others.all (fun c => isAlphanumeric c || "_.[]".toList.contains c) && !names.contains name then
      some (name, rest)
    else none
  | _, _ => none

/-- Whether the rest of a pattern is well formed, given the modes of the groups around it, the names
used, and whether there is something to repeat right before it. -/
def isRest (fuel : Nat) (m : Mode) (outer : List Mode) (names : List (List Char)) (operand : Bool)
    (s : List Char) : Bool :=
  match fuel with
  | 0 => false
  | fuel + 1 =>
    match m.skip s with
    | [] => outer.isEmpty
    | '(' :: rest =>
      match m.skip rest with
      | '?' :: 'P' :: '<' :: rest | '?' :: '<' :: rest =>
        match scanName names rest with
        | some (name, rest) => isRest fuel m (m :: outer) (name :: names) false rest
        | none => false
      | '?' :: rest =>
        match scanFlags rest with
        | some (flags, ')', rest) => flags ≠ [] && isRest fuel (m.setAll flags) outer names false rest
        | some (flags, _, rest) => isRest fuel (m.setAll flags) (m :: outer) names false rest
        | none => false
      | rest => isRest fuel m (m :: outer) names false rest
    | ')' :: rest =>
      match outer with
      | [] => false
      | around :: outer => isRest fuel around outer names true rest
    | '|' :: rest => isRest fuel m outer names false rest
    | '[' :: rest =>
      match (openClass m rest).bind (scanClass m fuel 0) with
      | some rest => !m.needsTable && isRest fuel m outer names true rest
      | none => false
    | '*' :: rest | '+' :: rest | '?' :: rest => operand && isRest fuel m outer names true rest
    | '\x7b' :: _ => false
    | '.' :: rest => m.unicode && isRest fuel m outer names true rest
    | '^' :: rest | '$' :: rest => isRest fuel m outer names true rest
    | '\\' :: rest =>
      match scanEscape m rest with
      | some (.char _, rest) => !m.needsTable && isRest fuel m outer names true rest
      | some (_, rest) => isRest fuel m outer names true rest
      | none => false
    | _ :: rest => !m.needsTable && isRest fuel m outer names true rest

end Pattern

def isPattern (s : List Char) : Bool :=
  Pattern.isRest (s.length + 1) Pattern.Mode.standard [] [] false s

end Apportion.Text
