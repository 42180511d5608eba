import Apportion.Edit.Trace
import Apportion.Proofs.Edit.Buffer
import Mathlib.Algebra.Group.Nat.Defs

/-!
Places of an edited text. Line and column of a place are told by the text in front of it. Every
character outside of all ranges is kept (`Sound.exists_keptAt`) and every range is replaced
(`Sound.exists_replacedAt`), each at one place in the text and one in what is rendered of it.
-/
namespace Apportion
open Text PositionMap

/-! ## Lines and columns -/

namespace Text

def units : List Char → Nat
  | [] => 0
  | c :: cs => units16 c + units cs

def lineOf (s : List Char) : Nat := s.count '\n'

def columnOf (s : List Char) : Nat := units (s.reverse.takeWhile (· ≠ '\n'))

theorem units16_pos (c : Char) : 0 < units16 c := by
  unfold units16
  split <;> omega

@[simp] theorem units_append (s t : List Char) : units (s ++ t) = units s + units t := by
  induction s with
  | nil => simp [units]
  | cons c s ih => simp [units, ih, Nat.add_assoc]

theorem units_reverse (s : List Char) : units s.reverse = units s := by
  induction s with
  | nil => rfl
  | cons c s ih => simp [units, ih, Nat.add_comm]

theorem lineOf_snoc (s : List Char) (c : Char) :
    lineOf (s ++ [c]) = if c = '\n' then lineOf s + 1 else lineOf s := by
  by_cases h : c = '\n' <;> simp [lineOf, List.count_append, h]

theorem columnOf_snoc (s : List Char) (c : Char) :
    columnOf (s ++ [c]) = if c = '\n' then 0 else columnOf s + units16 c := by
  by_cases h : c = '\n'
  · simp [columnOf, h, units]
  · simp [columnOf, h, units, Nat.add_comm]

theorem units_le_of_isPrefix {s t : List Char} (h : s <+: t) : units s ≤ units t := by
  obtain ⟨rest, rfl⟩ := h
  rw [units_append]
  omega

theorem columnOf_le_units (s : List Char) : columnOf s ≤ units s := by
  have parts := congrArg units
    (List.takeWhile_append_dropWhile (p := fun c => decide (c ≠ '\n')) (l := s.reverse))
  rw [units_append, units_reverse] at parts
  unfold columnOf
  omega

theorem lineOf_le_units (s : List Char) : lineOf s ≤ units s := by
  induction s with
  | nil => simp [lineOf]
  | cons c s ih =>
    have pos := units16_pos c
    unfold lineOf at ih ⊢
    rw [List.count_cons]
    simp only [units]
    split <;> omega

end Text

/-! ## Stretches -/

namespace CutAt
variable {offset : Nat} {text : List Char} {edits : List TextEdit} {stretches : List Stretch}

/-- A kept stretch comes first or after a replaced one. -/
theorem replaced_before (h : CutAt offset text edits stretches) {front back : List Stretch}
    {kept : List Char} (e : stretches = front ++ .kept kept :: back) :
    front = [] ∨ ∃ most old new, front = most ++ [.replaced old new] := by
  induction h generalizing front with
  | rest offset text =>
    cases front with
    | nil => exact .inl rfl
    | cons s front => simp at e
  | @edit offset before old rest edit edits stretches starts stops later ih =>
    cases front with
    | nil => exact .inl rfl
    | cons s front =>
      cases front with
      | nil => simp at e
      | cons t front =>
        simp only [List.cons_append, List.cons.injEq] at e
        obtain ⟨rfl, rfl, e⟩ := e
        rcases ih e with rfl | ⟨most, old', new', rfl⟩
        · exact .inr ⟨[.kept before], _, _, rfl⟩
        · exact .inr ⟨.kept before :: .replaced _ _ :: most, old', new', rfl⟩

theorem exists_kept (h : CutAt offset text edits stretches) {c : Char} {old rest : List Char}
    (e : text = old ++ c :: rest) (outside : ∀ e ∈ edits,
      offset + byteLength old < e.range.start ∨ e.range.stop ≤ offset + byteLength old) :
    ∃ front within rest' back, stretches = front ++ .kept (within ++ c :: rest') :: back ∧
      old = front.flatMap Stretch.original ++ within := by
  induction h generalizing old with
  | rest offset text => exact ⟨[], old, rest, [], by rw [e]; rfl, rfl⟩
  | @edit offset before gone later edit edits stretches starts stops cut ih =>
    rcases outside edit List.mem_cons_self with left | right
    · -- the character stands before the first edit
      rw [List.append_assoc] at e
      obtain ⟨more, e', e''⟩ := eq_append_of_byteLength_le e.symm (by omega)
      cases more with
      | nil =>
        rw [e', List.append_nil] at starts
        omega
      | cons c' more =>
        cases e''
        exact ⟨[], old, more, _, by rw [e']; rfl, rfl⟩
    · -- it stands behind this edit, in what is cut by the others
      have before' : byteLength (before ++ gone) ≤ byteLength old := by
        rw [byteLength_append]
        omega
      obtain ⟨more, rfl, e'⟩ := eq_append_of_byteLength_le e before'
      have offsets : offset + byteLength (before ++ gone ++ more) =
          edit.range.stop + byteLength more := by
        simp only [byteLength_append]
        omega
      obtain ⟨front, within, rest', back, rfl, rfl⟩ := ih e' fun f hf => by
        rw [← offsets]
        exact outside f (List.mem_cons_of_mem edit hf)
      exact ⟨.kept before :: .replaced gone edit.replacement.toList :: front, within, rest', back,
        rfl, by simp [Stretch.original]⟩

/-- Each edit has a stretch that starts with its range and ends with it. -/
theorem exists_replaced (h : CutAt offset text edits stretches) {e : TextEdit} (he : e ∈ edits) :
    ∃ front gone back, stretches = front ++ .replaced gone e.replacement.toList :: back ∧
      offset + byteLength (front.flatMap Stretch.original) = e.range.start ∧
      offset + byteLength (front.flatMap Stretch.original ++ gone) = e.range.stop := by
  induction h with
  | rest => cases he
  | @edit offset before gone rest edit edits stretches starts stops later ih =>
    rcases List.mem_cons.mp he with rfl | he
    · refine ⟨[.kept before], gone, stretches, rfl, by simpa [Stretch.original] using starts, ?_⟩
      simp only [List.flatMap_singleton, Stretch.original, byteLength_append]
      omega
    · obtain ⟨front, gone', back, rfl, start, stop⟩ := ih he
      refine ⟨.kept before :: .replaced gone edit.replacement.toList :: front, gone', back, rfl, ?_, ?_⟩
      all_goals
        simp only [List.flatMap_cons, Stretch.original, byteLength_append] at start stop ⊢
        omega

/-- Edits start where what is cut starts, or behind. -/
theorem le_start (h : CutAt offset text edits stretches) : ∀ e ∈ edits, offset ≤ e.range.start := by
  induction h with
  | rest => nofun
  | @edit offset before old rest edit edits stretches starts stops later ih =>
    intro e he
    rcases List.mem_cons.mp he with rfl | he
    · omega
    · have := ih e he
      omega

/-- What stands in front of a place in a kept stretch is cut by the edits in front of it. -/
theorem split_kept (h : CutAt offset text edits stretches) {front back : List Stretch}
    {within rest : List Char} (e : stretches = front ++ .kept (within ++ rest) :: back) :
    ∃ before after, edits = before ++ after ∧
      CutAt offset (front.flatMap Stretch.original ++ within) before (front ++ [.kept within]) ∧
      (∀ e ∈ before, e.range.stop ≤ offset + byteLength (front.flatMap Stretch.original)) ∧
      ∀ e ∈ after, offset + byteLength (front.flatMap Stretch.original ++ within ++ rest) ≤
        e.range.start := by
  induction h generalizing front with
  | rest offset text =>
    cases front with
    | nil => exact ⟨[], [], rfl, .rest offset within, nofun, nofun⟩
    | cons s front => simp at e
  | @edit offset start old later edit edits stretches starts stops cut ih =>
    match front with
    | [] =>
      simp only [List.nil_append, List.cons.injEq, Stretch.kept.injEq] at e
      obtain ⟨rfl, -⟩ := e
      refine ⟨[], _, rfl, .rest offset within, nofun, fun f hf => ?_⟩
      rcases List.mem_cons.mp hf with rfl | hf
      · exact Nat.le_of_eq starts
      · have := cut.le_start f hf
        rw [List.flatMap_nil, List.nil_append]
        omega
    | [s] => simp at e
    | s :: t :: front =>
      simp only [List.cons_append, List.cons.injEq] at e
      obtain ⟨rfl, rfl, e⟩ := e
      obtain ⟨before, after, rfl, cut', ends, starts'⟩ := ih e
      refine ⟨edit :: before, after, rfl, ?_, fun f hf => ?_, fun f hf => ?_⟩
      · simpa [Stretch.original] using CutAt.edit starts stops cut'
      · simp only [List.flatMap_cons, Stretch.original, byteLength_append]
        rcases List.mem_cons.mp hf with rfl | hf
        · omega
        · have := ends f hf
          omega
      · have := starts' f hf
        simp only [List.flatMap_cons, Stretch.original, byteLength_append] at this ⊢
        omega

/-- Each stretch that is replaced has its edit, and what stands in front of it is cut by the edits in
front of that. -/
theorem split_replaced (h : CutAt offset text edits stretches) {front back : List Stretch}
    {gone new : List Char} (e : stretches = front ++ .replaced gone new :: back) :
    ∃ before edit after, edits = before ++ edit :: after ∧ edit.replacement.toList = new ∧
      CutAt offset (front.flatMap Stretch.original) before front ∧
      offset + byteLength (front.flatMap Stretch.original) = edit.range.start ∧
      offset + byteLength (front.flatMap Stretch.original ++ gone) = edit.range.stop := by
  induction h generalizing front with
  | rest =>
    cases front with
    | nil => cases e
    | cons s front => simp at e
  | @edit offset before old rest edit edits stretches starts stops later ih =>
    match front with
    | [] => cases e
    | [s] =>
      simp only [List.cons_append, List.nil_append, List.cons.injEq, Stretch.replaced.injEq] at e
      obtain ⟨rfl, ⟨rfl, rfl⟩, rfl⟩ := e
      refine ⟨[], edit, edits, rfl, rfl, by simpa [Stretch.original] using CutAt.rest offset before,
        by simpa [Stretch.original] using starts, ?_⟩
      simp only [List.flatMap_singleton, Stretch.original, byteLength_append]
      omega
    | s :: t :: front =>
      simp only [List.cons_append, List.cons.injEq] at e
      obtain ⟨rfl, rfl, e⟩ := e
      obtain ⟨before', edit', after, rfl, new', cut, start, stop⟩ := ih e
      refine ⟨edit :: before', edit', after, rfl, new', ?_, ?_, ?_⟩
      · simpa [Stretch.original] using CutAt.edit starts stops cut
      all_goals
        simp only [List.flatMap_cons, Stretch.original, byteLength_append] at start stop ⊢
        omega

/-- There is one way to cut a text by edits. -/
theorem stretchesFrom_eq (h : CutAt offset text edits stretches) :
    EditBuffer.stretchesFrom offset text edits = stretches := by
  induction h with
  | rest => rfl
  | @edit offset before old rest edit edits stretches starts stops later ih =>
    have front : splitAtByte (edit.range.start - offset) (before ++ old ++ rest) =
        some (before, old ++ rest) := by
      rw [← starts, Nat.add_sub_cancel_left, List.append_assoc]
      exact splitAtByte_append _ _
    have gone : splitAtByte edit.range.length (old ++ rest) = some (old, rest) := by
      rw [ByteRange.length, ← stops, Nat.add_sub_cancel_left]
      exact splitAtByte_append _ _
    simp only [EditBuffer.stretchesFrom, front, gone, ih]

end CutAt

namespace EditBuffer

/-! ## Positions -/

/-- The position at the end of a text, in words. -/
def positionOf (s : List Char) : Position := ⟨.ofNat (lineOf s), .ofNat (columnOf s)⟩

theorem advance_positionOf (s : List Char) (c : Char) :
    (positionOf s).advance c = positionOf (s ++ [c]) := by
  unfold Position.advance positionOf
  rw [lineOf_snoc, columnOf_snoc]
  split
  · simp [UInt32.ofNat_add]
  · simp [UInt32.ofNat_add]

theorem foldl_advance_positionOf (s t : List Char) :
    t.foldl Position.advance (positionOf s) = positionOf (s ++ t) := by
  induction t generalizing s with
  | nil => simp
  | cons c t ih => rw [List.foldl_cons, advance_positionOf, ih, List.append_assoc, List.singleton_append]

theorem toNat_line_positionOf {s : List Char} (short : units s < 2 ^ 32) :
    (positionOf s).line.toNat = lineOf s :=
  UInt32.toNat_ofNat_of_lt' (Nat.lt_of_le_of_lt (lineOf_le_units s) short)

theorem toNat_column_positionOf {s : List Char} (short : units s < 2 ^ 32) :
    (positionOf s).column.toNat = columnOf s :=
  UInt32.toNat_ofNat_of_lt' (Nat.lt_of_le_of_lt (columnOf_le_units s) short)

/-- The segment that links a place in what is rendered to one in the text. -/
def link (old new : List Char) : Segment :=
  ⟨(positionOf new).column, some ⟨0, (positionOf old).line, (positionOf old).column, none⟩⟩

theorem toNat_column_link {old new : List Char} (short : units new < 2 ^ 32) :
    (link old new).column.toNat = columnOf new := toNat_column_positionOf short

/-! ## Places -/

/-- A character of a kept stretch: `old` stands before it in the text, `new` is rendered before it, and
`previous` is the kept character right before it in its stretch. -/
def KeptAt (b : EditBuffer) (c : Char) (old new : List Char) (previous : Option Char) : Prop :=
  ∃ front within rest back, b.stretches = front ++ .kept (within ++ c :: rest) :: back ∧
    old = front.flatMap Stretch.original ++ within ∧
    new = front.flatMap Stretch.rendered ++ within ∧ previous = within.getLast?

/-- The start of an edit: `old` stands before its range in the text, and `new` is rendered before its
replacement. -/
structure ReplacedAt (b : EditBuffer) (e : TextEdit) (old new : List Char) : Prop where
  mem : e ∈ b.edits
  start : byteLength old = e.range.start
  stretch : ∃ front gone back, b.stretches = front ++ .replaced gone e.replacement.toList :: back ∧
    old = front.flatMap Stretch.original ∧ new = front.flatMap Stretch.rendered ∧
    byteLength (old ++ gone) = e.range.stop

/-- A place that a segment may stand for. -/
inductive Place (b : EditBuffer) (old new : List Char) : Prop
  | kept {c : Char} {previous : Option Char} (h : b.KeptAt c old new previous)
  | replaced {e : TextEdit} (h : b.ReplacedAt e old new)

variable {b : EditBuffer}

theorem Sound.exists_keptAt (h : b.Sound) {c : Char} {old rest : List Char}
    (text : b.text.toList = old ++ c :: rest)
    (outside : ∀ e ∈ b.edits, byteLength old < e.range.start ∨ e.range.stop ≤ byteLength old) :
    ∃ new previous, b.KeptAt c old new previous := by
  obtain ⟨front, within, rest', back, e, rfl⟩ :=
    h.cutAt.exists_kept text fun e he => by simpa using outside e he
  exact ⟨_, _, front, within, rest', back, e, rfl, rfl, rfl⟩

theorem Sound.exists_replacedAt (h : b.Sound) {e : TextEdit} (he : e ∈ b.edits) :
    ∃ old new, b.ReplacedAt e old new := by
  obtain ⟨front, gone, back, stretches, start, stop⟩ := h.cutAt.exists_replaced he
  rw [Nat.zero_add] at start stop
  exact ⟨_, _, he, start, front, gone, back, stretches, rfl, rfl, stop⟩

theorem Sound.replacedAt_of_stretch (h : b.Sound) {front back : List Stretch} {gone new : List Char}
    (e : b.stretches = front ++ .replaced gone new :: back) : ∃ edit, edit.replacement.toList = new ∧
      byteLength (front.flatMap Stretch.original ++ gone) = edit.range.stop ∧
      b.ReplacedAt edit (front.flatMap Stretch.original) (front.flatMap Stretch.rendered) := by
  obtain ⟨before, edit, after, edits, rfl, -, start, stop⟩ := h.cutAt.split_replaced e
  rw [Nat.zero_add] at start stop
  exact ⟨edit, rfl, stop, by simp [edits], start, front, gone, back, e, rfl, rfl, stop⟩

theorem Sound.isPrefix_of_place (h : b.Sound) {old new : List Char} (place : b.Place old new) :
    old <+: b.text.toList ∧ new <+: b.render.toList := by
  rw [render, String.toList_ofList, ← h.cutAt.original]
  rcases place with ⟨front, within, rest, back, e, rfl, rfl, -⟩ | ⟨-, -, front, gone, back, e, rfl, rfl, -⟩
  · simp [e, Stretch.original, Stretch.rendered]
  · simp [e]

theorem isPrefix_render_of_kept {front back : List Stretch} {within rest : List Char}
    (e : b.stretches = front ++ .kept (within ++ rest) :: back) :
    front.flatMap Stretch.rendered ++ within <+: b.render.toList := by
  rw [render, String.toList_ofList, e]
  simp [Stretch.rendered]

theorem ReplacedAt.start_le_stop {e : TextEdit} {old new : List Char}
    (replaced : b.ReplacedAt e old new) : byteLength old ≤ e.range.stop := by
  obtain ⟨front, gone, back, -, -, -, stop⟩ := replaced.stretch
  rw [← stop, byteLength_append]
  omega

theorem KeptAt.isPrefix_render {c : Char} {old new : List Char} {previous : Option Char}
    (kept : b.KeptAt c old new previous) : new ++ [c] <+: b.render.toList := by
  obtain ⟨front, within, rest, back, e, rfl, rfl, -⟩ := kept
  have further : b.stretches = front ++ .kept (within ++ [c] ++ rest) :: back := by
    rw [e, List.append_assoc, List.singleton_append]
  rw [List.append_assoc]
  exact isPrefix_render_of_kept further

theorem ReplacedAt.isPrefix_render {e : TextEdit} {old new : List Char}
    (replaced : b.ReplacedAt e old new) : new ++ e.replacement.toList <+: b.render.toList := by
  obtain ⟨front, gone, back, stretches, rfl, rfl, -⟩ := replaced.stretch
  rw [render, String.toList_ofList, stretches]
  simp [Stretch.rendered]

/-- A place is shown by words in texts that are. -/
theorem Sound.units_le_of_place (h : b.Sound) {old new : List Char} (place : b.Place old new) :
    units old ≤ units b.text.toList ∧ units new ≤ units b.render.toList :=
  (h.isPrefix_of_place place).imp units_le_of_isPrefix units_le_of_isPrefix

end EditBuffer
end Apportion
