import Apportion.PositionMap.Document

/-!
Composition of position maps. If `outer` leads from a final text to an intermediate one, and `inner`
from there to the sources, then `compose outer inner` leads from the final text to the sources.
Sources and names are listed once each, in the order in which segments first use them.
-/
namespace Apportion.PositionMap

/-- A composed segment before it is given indexes: the index among the inner map's sources, and the
name as a text. -/
structure Joined where
  column : UInt32
  origin : Option (UInt32 × UInt32 × UInt32 × Option String)
  deriving DecidableEq, Repr

def nameAt (names : List String) (index : UInt32) : Except MapError String :=
  match names[index.toNat]? with
  | some name => .ok name
  | none => .error (.indexOutOfRange .names index names.length)

/-- The name of a composed segment: the inner one if there is one, else the outer one. -/
def chosenName (outer inner : PositionMap) (outerName innerName : Option UInt32) :
    Except MapError (Option String) :=
  match innerName, outerName with
  | some n, _ => (nameAt inner.names n).map some
  | none, some n => (nameAt outer.names n).map some
  | none, none => .ok none

/-- One outer segment carried over: kept as it is if it has no origin, dropped if its origin leads
nowhere, and else linked to where the inner map leads. -/
def joinSegment (outer inner : PositionMap) (innerLines : Lines) (s : Segment) :
    Except MapError (Option Joined) :=
  match s.origin with
  | none => .ok (some ⟨s.column, none⟩)
  | some place =>
    match (trace innerLines place.line place.column).bind (·.origin) with
    | none => .ok none
    | some origin =>
      if inner.sources.length ≤ origin.source.toNat then
        .error (.indexOutOfRange .sources origin.source inner.sources.length)
      else
        (chosenName outer inner place.name origin.name).map fun name =>
          some ⟨s.column, some (origin.source, origin.line, origin.column, name)⟩

def joinLine (outer inner : PositionMap) (innerLines : Lines) (line : List Segment) :
    Except MapError (List Joined) := do
  return (← line.mapM (joinSegment outer inner innerLines)).filterMap id

def indexIn {α : Type} [BEq α] (a : α) (l : List α) : UInt32 := UInt32.ofNat (l.idxOf a)

/-- A segment with the indexes of its source and name in the composed tables. -/
def Joined.segment (sources : List UInt32) (names : List String) (j : Joined) : Segment :=
  ⟨j.column, j.origin.map fun (source, line, column, name) =>
    ⟨indexIn source sources, line, column, name.map fun n => indexIn n names⟩⟩

/-- The text of an inner source, if the inner map has it. -/
def contentAt (m : PositionMap) (source : UInt32) : Option String :=
  m.sourcesContent.bind fun contents => contents[source.toNat]?.join

/-- `outer` after `inner`. -/
def compose (outer inner : PositionMap) : Except MapError PositionMap := do
  let outerLines ← outer.lines
  let innerLines ← inner.lines
  let joined ← outerLines.mapM (joinLine outer inner innerLines)
  let origins := joined.flatten.filterMap (·.origin)
  let sources := (origins.map (·.1)).eraseDups
  let names := (origins.filterMap fun (_, _, _, name) => name).eraseDups
  let contents := sources.map inner.contentAt
  return {
    file := outer.file
    sourceRoot := inner.sourceRoot
    sources := sources.map fun i => inner.sources[i.toNat]?.join
    sourcesContent := if contents.any Option.isSome then some contents else none
    names := names
    mappings := encode (joined.map fun line => line.map (Joined.segment sources names)) }

/-- Any number of stages, the outermost first. -/
def composeChain : List PositionMap → Except MapError PositionMap
  | [] => .error .emptyChain
  | first :: rest => rest.foldlM compose first

end Apportion.PositionMap
