import Apportion.Text.Offsets

/-!
Edits of one text. A buffer holds replacements for byte ranges of its text, sorted by start and
free of overlaps, and renders all of them at once, so no edit sees offsets moved by another one.
-/
namespace Apportion
open Text

/-- The bytes from `start` up to but not including `stop`. -/
structure ByteRange where
  start : Nat
  stop : Nat
  deriving DecidableEq, Repr

namespace ByteRange

/-- Zero for a range that ends before it starts. -/
def length (r : ByteRange) : Nat := r.stop - r.start

def isEmpty (r : ByteRange) : Bool := r.length == 0

/-- Two ranges overlap if they share a byte or start at the same place: of two insertions at one
place, neither is the first. -/
def overlaps (r s : ByteRange) : Bool :=
  r.start == s.start || (r.start < s.stop && s.start < r.stop)

def notAfter (r s : ByteRange) : Bool := r.start < s.start || (r.start == s.start && r.stop ≤ s.stop)

end ByteRange

structure TextEdit where
  range : ByteRange
  replacement : String
  deriving DecidableEq, Repr

inductive EditError
  | outOfBounds (range : ByteRange) (length : Nat)
  | splitsCharacter (range : ByteRange)
  | overlap (range other : ByteRange)
  deriving DecidableEq, Repr

def EditError.message : EditError → String
  | outOfBounds r length => s!"range {r.start}..{r.stop} is outside the {length}-byte content"
  | splitsCharacter r => s!"range {r.start}..{r.stop} splits a character"
  | overlap r other =>
    s!"range {r.start}..{r.stop} overlaps the edit at {other.start}..{other.stop}"

structure EditBuffer where
  text : String
  edits : List TextEdit
  deriving DecidableEq, Repr

/-- A stretch of an edited text. -/
inductive Stretch
  | kept (text : List Char)
  | replaced (old new : List Char)
  deriving DecidableEq, Repr

def Stretch.rendered : Stretch → List Char
  | kept text => text
  | replaced _ new => new

namespace EditBuffer

def ofText (text : String) : EditBuffer := ⟨text, []⟩

/-- The edit in front of a place and the one behind it. -/
def neighbours (before after : List TextEdit) : List TextEdit :=
  before.getLast?.toList ++ after.head?.toList

def overwrite (b : EditBuffer) (range : ByteRange) (replacement : String) :
    Except EditError EditBuffer :=
  let text := b.text.toList
  if range.stop < range.start ∨ byteLength text < range.stop then
    .error (.outOfBounds range (byteLength text))
  else if !(isBoundary text range.start && isBoundary text range.stop) then
    .error (.splitsCharacter range)
  else
    let before := b.edits.takeWhile fun e => e.range.start < range.start
    let after := b.edits.dropWhile fun e => e.range.start < range.start
    match (neighbours before after).find? fun e => e.range.overlaps range with
    | some other => .error (.overlap range other.range)
    | none => .ok { b with edits := before ++ ⟨range, replacement⟩ :: after }

/-- All edits in turn; the first that is refused ends the run. -/
def overwriteAll (b : EditBuffer) (edits : List TextEdit) : Except EditError EditBuffer :=
  edits.foldlM (fun b e => b.overwrite e.range e.replacement) b

/-- The stretches of a text that starts at byte `offset` of the whole. -/
def stretchesFrom (offset : Nat) (text : List Char) : List TextEdit → List Stretch
  | [] => [.kept text]
  | e :: edits =>
    match splitAtByte (e.range.start - offset) text with
    | none => [.kept text]
    | some (before, rest) =>
      match splitAtByte e.range.length rest with
      | none => [.kept text]
      | some (old, rest) =>
        .kept before :: .replaced old e.replacement.toList :: stretchesFrom e.range.stop rest edits

def stretches (b : EditBuffer) : List Stretch := stretchesFrom 0 b.text.toList b.edits

def render (b : EditBuffer) : String := String.ofList (b.stretches.flatMap Stretch.rendered)

end EditBuffer
end Apportion
