import Apportion.Text.Split

/-!
Segments of a position map, which link a column of a generated line to a place in a source (`trace`
finds the one that answers for a position), and the text form of all of them, the mappings. Lines are
separated by `;` and segments by `,`. A segment is one, four or five numbers, each the difference to
the number of the same kind before it, and each written as digits of base 32 with the lowest first and
the sign in the lowest bit of all. Numbers are kept in signed 64-bit words, which wrap around.
-/
namespace Apportion.PositionMap
open Text

/-! ## Segments -/

/-- A place in one of the map's sources, with the index of a name if there is one. -/
structure Origin where
  source : UInt32
  line : UInt32
  column : UInt32
  name : Option UInt32
  deriving DecidableEq, Repr

/-- A generated column, and where the text from there on comes from, if from anywhere. -/
structure Segment where
  column : UInt32
  origin : Option Origin
  deriving DecidableEq, Repr

abbrev Lines := List (List Segment)

def Segment.notAfter (a b : Segment) : Bool := a.column ≤ b.column

/-- The last segment at or before a column, on a line sorted by column. -/
def traceLine (segments : List Segment) (column : UInt32) : Option Segment :=
  (segments.takeWhile fun s => s.column ≤ column).getLast?

/-- The segment that answers for a line and column, if the line has one that early. -/
def trace (lines : Lines) (line column : UInt32) : Option Segment :=
  lines[line.toNat]?.bind fun segments => traceLine segments column

/-! ## Digits -/

def letterOf (d : Nat) : Char :=
  if d < 26 then Char.ofNat (65 + d)
  else if d < 52 then Char.ofNat (97 + (d - 26))
  else if d < 62 then Char.ofNat (48 + (d - 52))
  else if d = 62 then '+' else '/'

def digitOf (c : Char) : Option Nat :=
  if 'A' ≤ c ∧ c ≤ 'Z' then some (c.toNat - 65)
  else if 'a' ≤ c ∧ c ≤ 'z' then some (c.toNat - 97 + 26)
  else if '0' ≤ c ∧ c ≤ '9' then some (c.toNat - 48 + 52)
  else if c = '+' then some 62
  else if c = '/' then some 63
  else none

/-- The first byte of a character's UTF-8 form. -/
def leadByte (c : Char) : Nat :=
  let n := c.toNat
  if n < 0x80 then n
  else if n < 0x800 then 0xC0 + n / 0x40
  else if n < 0x10000 then 0xE0 + n / 0x1000
  else 0xF0 + n / 0x40000

/-! ## Faults -/

inductive Quantity
  | generatedColumn
  | sourceIndex
  | sourceLine
  | sourceColumn
  | nameIndex
  deriving DecidableEq, Repr

inductive Fault
  | invalidDigit (byte : Nat)
  | overflow
  | truncated
  | fieldCount (segment : String) (count : Nat)
  | outOfRange (quantity : Quantity) (value : Int)
  deriving DecidableEq, Repr

def Quantity.label : Quantity → String
  | generatedColumn => "generated column"
  | sourceIndex => "source index"
  | sourceLine => "original line"
  | sourceColumn => "original column"
  | nameIndex => "name index"

def Fault.message : Fault → String
  | invalidDigit byte => s!"invalid base64 digit '{Char.ofNat byte}'"
  | overflow => "VLQ value overflows 64 bits"
  | truncated => "truncated VLQ value"
  | fieldCount segment count => s!"segment '{segment}' has {count} fields"
  | outOfRange quantity value => s!"{quantity.label} out of range: {value}"

/-! ## Reading -/

/-- The signed 64-bit word that an integer wraps around to. -/
def wrap (n : Int) : Int := n.bmod 0x10000000000000000

/-- A digit's lower five bits as an addend; bits beyond the word are lost. -/
def addend (digit shift : Nat) : Int := wrap (((digit % 32) <<< shift : Nat) : Int)

/-- A finished number: the lowest bit is the sign. -/
def signed (value : Int) : Int := if value % 2 = 1 then -(value / 2) else value / 2

/-- The numbers of a segment, from the state within one number on. -/
def numbersFrom (value : Int) (shift : Nat) : List Char → Except Fault (List Int)
  | [] => if shift = 0 then .ok [] else .error .truncated
  | c :: rest =>
    match digitOf c with
    | none => .error (.invalidDigit (leadByte c))
    | some digit =>
      if 60 < shift then .error .overflow
      else
        let value := wrap (value + addend digit shift)
        if 32 ≤ digit then numbersFrom value (shift + 5) rest
        else (numbersFrom 0 0 rest).map (signed value :: ·)

def numbers (segment : List Char) : Except Fault (List Int) := numbersFrom 0 0 segment

/-- Running sums of the differences; the generated column starts afresh on every line. -/
structure Sums where
  source : Int
  line : Int
  column : Int
  name : Int
  deriving DecidableEq, Repr

def Sums.zero : Sums := ⟨0, 0, 0, 0⟩

/-- The sum as a word of 32 bits, if it is one. -/
def inRange (quantity : Quantity) (value : Int) : Except Fault UInt32 :=
  if 0 ≤ value ∧ value < 0x100000000 then .ok (UInt32.ofNat value.toNat)
  else .error (.outOfRange quantity value)

/-- The origin that the sums stand for. -/
def Sums.origin (sums : Sums) (named : Bool) : Except Fault Origin := do
  let name ← if named then (inRange .nameIndex sums.name).map some else .ok none
  let source ← inRange .sourceIndex sums.source
  let line ← inRange .sourceLine sums.line
  let column ← inRange .sourceColumn sums.column
  return ⟨source, line, column, name⟩

def readSegment (generated : Int) (sums : Sums) (text : List Char) :
    Except Fault (Int × Sums × Segment) := do
  match ← numbers text with
  | [g] =>
    let generated := wrap (generated + g)
    return (generated, sums, ⟨← inRange .generatedColumn generated, none⟩)
  | [g, s, l, c] =>
    let generated := wrap (generated + g)
    let sums : Sums := ⟨wrap (sums.source + s), wrap (sums.line + l), wrap (sums.column + c), sums.name⟩
    let origin ← sums.origin false
    return (generated, sums, ⟨← inRange .generatedColumn generated, some origin⟩)
  | [g, s, l, c, n] =>
    let generated := wrap (generated + g)
    let sums : Sums :=
      ⟨wrap (sums.source + s), wrap (sums.line + l), wrap (sums.column + c), wrap (sums.name + n)⟩
    let origin ← sums.origin true
    return (generated, sums, ⟨← inRange .generatedColumn generated, some origin⟩)
  | fields => throw (.fieldCount (String.ofList text) fields.length)

def readSegments (generated : Int) (sums : Sums) :
    List (List Char) → Except Fault (List Segment × Sums)
  | [] => .ok ([], sums)
  | text :: texts => do
    let (generated, sums, segment) ← readSegment generated sums text
    let (segments, sums) ← readSegments generated sums texts
    return (segment :: segments, sums)

/-- The texts of a line's segments; empty ones count for nothing. -/
def segmentTexts (line : List Char) : List (List Char) := (split ',' line).filter (· ≠ [])

/-- The lines from the given one on, each sorted by generated column. A fault comes with its
line. -/
def readLines (index : Nat) (sums : Sums) : List (List Char) → Except (Nat × Fault) Lines
  | [] => .ok []
  | line :: lines =>
    match readSegments 0 sums (segmentTexts line) with
    | .error fault => .error (index, fault)
    | .ok (segments, sums) =>
      (readLines (index + 1) sums lines).map (segments.mergeSort Segment.notAfter :: ·)

def decode (mappings : String) : Except (Nat × Fault) Lines :=
  readLines 0 Sums.zero (split ';' mappings.toList)

/-! ## Writing -/

/-- The digits of a number, the lowest first; all but the last have the sixth bit set. -/
def digits (n : Nat) : List Nat := if n < 32 then [n] else (n % 32 + 32) :: digits (n / 32)
termination_by n
decreasing_by omega

/-- A difference, its sign in the lowest bit. -/
def writeNumber (n : Int) : List Char :=
  (digits (if n < 0 then 2 * n.natAbs + 1 else 2 * n.natAbs)).map letterOf

def Origin.sums (o : Origin) (previous : Sums) : Sums :=
  ⟨o.source.toNat, o.line.toNat, o.column.toNat, (o.name.map fun n => (n.toNat : Int)).getD previous.name⟩

/-- A segment after the given generated column and sums. -/
def writeSegment (generated : Int) (sums : Sums) (s : Segment) : List Char :=
  writeNumber (s.column.toNat - generated) ++
  match s.origin with
  | none => []
  | some o =>
    writeNumber (o.source.toNat - sums.source) ++ writeNumber (o.line.toNat - sums.line) ++
    writeNumber (o.column.toNat - sums.column) ++
    match o.name with
    | none => []
    | some n => writeNumber (n.toNat - sums.name)

def Segment.sums (s : Segment) (previous : Sums) : Sums :=
  match s.origin with
  | none => previous
  | some o => o.sums previous

def writeSegments (generated : Int) (sums : Sums) : List Segment → List (List Char) × Sums
  | [] => ([], sums)
  | s :: rest =>
    let (texts, after) := writeSegments s.column.toNat (s.sums sums) rest
    (writeSegment generated sums s :: texts, after)

def writeLines (sums : Sums) : Lines → List (List Char)
  | [] => []
  | segments :: lines =>
    let (texts, after) := writeSegments 0 sums segments
    join [','] texts :: writeLines after lines

def encode (lines : Lines) : String := String.ofList (join [';'] (writeLines Sums.zero lines))

end Apportion.PositionMap
