import Apportion.Edit
import Apportion.Text.Character
import Apportion.Text.Split
import Apportion.PositionMap.Document

/-!
The position map of an edited text, from the rendered text back to the one before the edits. Segments stand at
every replacement, and within kept text where a line or a stretch begins and where a word begins or
a character that belongs to no word stands. Columns count UTF-16 units.
-/
namespace Apportion.EditBuffer
open Text PositionMap

/-- A line and a column, both counted from zero in 32-bit words. -/
structure Position where
  line : UInt32
  column : UInt32
  deriving DecidableEq, Repr

/-- The position after a character. -/
def Position.advance (p : Position) (c : Char) : Position :=
  if c = '\n' then ⟨p.line + 1, 0⟩ else ⟨p.line, p.column + UInt32.ofNat (units16 c)⟩

def isWordChar (c : Char) : Bool := isAlphanumeric c || c == '_' || c == '$'

/-- Whether kept text gets a segment at `c`, given the kept character right before it. -/
def isBreak (previous : Option Char) (c : Char) : Bool :=
  match previous with
  | none => true
  | some p => isBlank p || isWordChar p != isWordChar c || !isWordChar c

/-- A place in the rendered text and the place in the unedited text that it comes from. Finished lines
are held newest first, and so are the segments of the current line. -/
structure Walk where
  finished : Lines
  current : List Segment
  generated : Position
  source : Position
  previous : Option Char
  deriving Repr

namespace Walk

def begin : Walk := ⟨[], [], ⟨0, 0⟩, ⟨0, 0⟩, none⟩

/-- The walk with a segment at its place, unless the line ends with one at this column already. -/
def mark (w : Walk) : Walk :=
  if w.current.head?.any fun s => s.column == w.generated.column then w
  else
    { w with
      current :=
        ⟨w.generated.column, some ⟨0, w.source.line, w.source.column, none⟩⟩ :: w.current }

/-- One character further in the rendered text. -/
def advance (w : Walk) (c : Char) : Walk :=
  let w := if c = '\n' then { w with finished := w.current.reverse :: w.finished, current := [] } else w
  { w with generated := w.generated.advance c }

/-- One character further in both texts. -/
def keep (w : Walk) (c : Char) : Walk :=
  let marked := !isBlank c && (w.generated.column == 0 || isBreak w.previous c)
  let w := (if marked then w.mark else w).advance c
  { w with source := w.source.advance c, previous := some c }

def pass (w : Walk) : Stretch → Walk
  | .kept text => text.foldl keep w
  | .replaced old new =>
    let w := new.foldl advance w.mark
    { w with source := old.foldl Position.advance w.source, previous := none }

def lines (w : Walk) : Lines := (w.current.reverse :: w.finished).reverse

end Walk

/-- The segments of every line of the rendered text. -/
def tracedLines (b : EditBuffer) : Lines := (b.stretches.foldl Walk.pass Walk.begin).lines

/-- The position map under the given file name, with the unedited text as `source`. -/
def positionMap (b : EditBuffer) (file source : String) : PositionMap :=
  PositionMap.ofLines (some file) [some source] [] b.tracedLines

end Apportion.EditBuffer
