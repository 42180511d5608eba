import Apportion.Proofs.Edit.Positions

/-!
Marks of an edited text. A place is told by the text in front of it and the edits in front of it alone:
what is rendered up to there is that text with those edits made (`Sound.unchanged_of_keptAt`,
`Sound.begins_of_replacedAt`). In these terms the position map of an edited text is sound and complete
(`traces_positionMap`).
-/
namespace Apportion
open Text PositionMap

/-- A segment from the end of a rendered text to the end of the text before its edits. -/
structure PositionMap.Segment.Joins (s : Segment) (old new : List Char) : Prop where
  column : s.column.toNat = columnOf new
  origin : ∃ o, s.origin = some o ∧ o.source = 0 ∧ o.line.toNat = lineOf old ∧
    o.column.toNat = columnOf old ∧ o.name = none

namespace EditBuffer
variable {b : EditBuffer} {c : Char} {e : TextEdit} {old new : List Char}

/-! ## Places by the edits in front of them -/

/-- A beginning of the text with the edits made that start before a place. -/
def renderedTo (b : EditBuffer) (old : List Char) (place : Nat) : List Char :=
  (EditBuffer.render ⟨String.ofList old, b.front place⟩).toList

/-- A character outside of all ranges, behind `old` in the text and behind `new` in what is rendered. -/
structure Unchanged (b : EditBuffer) (c : Char) (old new : List Char) : Prop where
  text : ∃ rest, b.text.toList = old ++ c :: rest
  outside : ∀ e ∈ b.edits, byteLength old < e.range.start ∨ e.range.stop ≤ byteLength old
  rendered : new = b.renderedTo old (byteLength old + 1)

/-- An edit whose range starts behind `old` in the text, and its replacement behind `new` in what is
rendered. -/
structure Begins (b : EditBuffer) (e : TextEdit) (old new : List Char) : Prop where
  mem : e ∈ b.edits
  text : old <+: b.text.toList
  start : byteLength old = e.range.start
  rendered : new = b.renderedTo old e.range.start

theorem front_eq {before after : List TextEdit} (edits : b.edits = before ++ after) {place : Nat}
    (starts : ∀ e ∈ before, e.range.start < place) (behind : ∀ e ∈ after, place ≤ e.range.start) :
    b.front place = before := by
  rw [front, edits, List.takeWhile_append_of_pos (by simpa using starts)]
  cases after with
  | nil => rw [List.takeWhile_nil, List.append_nil]
  | cons e after =>
    have := behind e List.mem_cons_self
    rw [List.takeWhile_cons_of_neg (by simpa using this), List.append_nil]

/-- What edits cut a beginning of the text into is rendered to what is rendered in front. -/
theorem renderedTo_eq {place : Nat} {stretches : List Stretch}
    (cut : CutAt 0 old (b.front place) stretches) :
    b.renderedTo old place = stretches.flatMap Stretch.rendered := by
  rw [renderedTo, render, String.toList_ofList, EditBuffer.stretches, String.toList_ofList,
    cut.stretchesFrom_eq]

theorem Sound.unchanged_of_keptAt (h : b.Sound) {previous : Option Char}
    (kept : b.KeptAt c old new previous) : b.Unchanged c old new := by
  obtain ⟨front, within, rest, back, e, rfl, rfl, -⟩ := kept
  obtain ⟨before, after, edits, cut, ends, starts⟩ := h.cutAt.split_kept e
  have pos := c.utf8Size_pos
  simp only [Nat.zero_add, byteLength_append, byteLength] at ends starts
  have front' : b.front (byteLength (front.flatMap Stretch.original ++ within) + 1) = before := by
    refine front_eq edits (fun f hf => ?_) (fun f hf => ?_)
    · have forward := (h.fits f (by simp [edits, hf])).forward
      have := ends f hf
      rw [byteLength_append]
      omega
    · have := starts f hf
      rw [byteLength_append]
      omega
  refine ⟨?_, fun f hf => ?_, ?_⟩
  · exact ⟨rest ++ back.flatMap Stretch.original, by
      rw [← h.cutAt.original, e]
      simp [Stretch.original]⟩
  · rw [byteLength_append]
    rcases List.mem_append.mp (edits ▸ hf) with hf | hf
    · have := ends f hf
      omega
    · have := starts f hf
      omega
  · rw [← front'] at cut
    rw [renderedTo_eq cut]
    simp [Stretch.rendered]

theorem Sound.begins_of_replacedAt (h : b.Sound) (replaced : b.ReplacedAt e old new) :
    b.Begins e old new := by
  have text := (h.isPrefix_of_place (.replaced replaced)).1
  obtain ⟨mem, start, front, gone, back, stretches, rfl, rfl, -⟩ := replaced
  obtain ⟨before, edit, after, edits, -, cut, start', -⟩ := h.cutAt.split_replaced stretches
  rw [Nat.zero_add, start] at start'
  have ordered := h.ordered
  rw [edits, List.pairwise_append, List.pairwise_cons] at ordered
  obtain ⟨-, ⟨later, -⟩, earlier⟩ := ordered
  have front' : b.front e.range.start = before := by
    refine front_eq edits (fun f hf => ?_) (fun f hf => ?_)
    · rw [start']
      exact (earlier f hf edit List.mem_cons_self).1
    · rcases List.mem_cons.mp hf with rfl | hf
      · exact Nat.le_of_eq start'
      · rw [start']
        exact Nat.le_of_lt (later f hf).1
  rw [← front'] at cut
  exact ⟨mem, text, start, (renderedTo_eq cut).symm⟩

theorem Sound.exists_keptAt_of_unchanged (h : b.Sound) (unchanged : b.Unchanged c old new) :
    ∃ previous, b.KeptAt c old new previous := by
  obtain ⟨rest, text⟩ := unchanged.text
  obtain ⟨new', previous, kept⟩ := h.exists_keptAt text unchanged.outside
  rw [unchanged.rendered, ← (h.unchanged_of_keptAt kept).rendered]
  exact ⟨previous, kept⟩

/-! ## Breaks -/

/-- An unchanged character is at a break if it stands right behind an edit, belongs to no word, or
follows a blank or a character of the other kind. -/
theorem Sound.isBreak_of_keptAt (h : b.Sound) {previous : Option Char}
    (kept : b.KeptAt c old new previous)
    (place : (∃ e ∈ b.edits, e.range.stop = byteLength old) ∨ isWordChar c = false ∨
      ∃ p, old.getLast? = some p ∧ (isBlank p = true ∨ isWordChar p ≠ isWordChar c)) :
    isBreak previous c = true := by
  obtain ⟨front, within, rest, back, e, rfl, rfl, rfl⟩ := kept
  cases last : within.getLast? with
  | none => rfl
  | some q =>
    simp only [isBreak, Bool.or_eq_true, bne_iff_ne, Bool.not_eq_true']
    rcases place with ⟨edit, mem, stop⟩ | alone | ⟨p, last', other⟩
    · -- no edit stops within a kept stretch
      obtain ⟨before, after, edits, -, ends, starts⟩ := h.cutAt.split_kept e
      obtain ⟨most, rfl⟩ := List.getLast?_eq_some_iff.mp last
      have pos := q.utf8Size_pos
      have pos' := c.utf8Size_pos
      have forward := (h.fits edit mem).forward
      simp only [Nat.zero_add, byteLength_append, byteLength] at ends starts stop
      rcases List.mem_append.mp (edits ▸ mem) with mem | mem
      · have := ends edit mem
        omega
      · have := starts edit mem
        omega
    · exact .inr alone
    · rw [List.getLast?_append, last, Option.some_or, Option.some_inj] at last'
      rw [last']
      exact .inl other

/-! ## Soundness and completeness -/

/-- Some segment of the line joins both ends. -/
def Traced (lines : Lines) (old new : List Char) : Prop :=
  ∃ s, Holds lines (lineOf new) s ∧ s.Joins old new

/-- Both ends are joined, or an edit with an empty replacement ends there and an earlier place is joined
to the same place of what is rendered. -/
def Shown (b : EditBuffer) (lines : Lines) (old new : List Char) : Prop :=
  Traced lines old new ∨ ∃ e start before, e.replacement = "" ∧ b.Begins e start new ∧
    e.range.stop = byteLength old ∧ before <+: start ∧ Traced lines before new

/-- Lines that trace an edited text. There is one for each line that is rendered, with its segments in
the order of their columns. Each segment joins the two places of an unchanged character or of the start
of an edit. Each start of an edit is shown, and so is each unchanged character that is no blank and is
the first on its line or behind an edit, or belongs to no word, or follows a blank or a character of the
other kind. -/
structure Traces (b : EditBuffer) (lines : Lines) : Prop where
  length : lines.length = lineOf b.render.toList + 1
  ordered : ∀ line ∈ lines, line.Pairwise fun s t => s.column < t.column
  sound : ∀ line s, Holds lines line s → ∃ old new, line = lineOf new ∧ s.Joins old new ∧
    ((∃ c, b.Unchanged c old new ∧ new ++ [c] <+: b.render.toList) ∨
      ∃ e, b.Begins e old new ∧ new ++ e.replacement.toList <+: b.render.toList)
  starts : ∀ e ∈ b.edits, ∃ old new, b.Begins e old new ∧ b.Shown lines old new
  breaks : ∀ c old new, b.Unchanged c old new → isBlank c = false →
    (columnOf new = 0 ∨ (∃ e ∈ b.edits, e.range.stop = byteLength old) ∨ isWordChar c = false ∨
      ∃ p, old.getLast? = some p ∧ (isBlank p = true ∨ isWordChar p ≠ isWordChar c)) →
    b.Shown lines old new

/-- The ends of a place are joined by its segment. -/
theorem Sound.joins_link (h : b.Sound) (short : units b.text.toList < 2 ^ 32)
    (short' : units b.render.toList < 2 ^ 32) (place : b.Place old new) :
    (link old new).Joins old new := by
  obtain ⟨oldUnits, newUnits⟩ := h.units_le_of_place place
  exact ⟨toNat_column_link (by omega), _, rfl, rfl, toNat_line_positionOf (by omega),
    toNat_column_positionOf (by omega), rfl⟩

theorem Sound.shown_of_linked (h : b.Sound) (short : units b.text.toList < 2 ^ 32)
    (short' : units b.render.toList < 2 ^ 32) {lines : Lines} (place : b.Place old new)
    (linked : Linked lines b old new) : b.Shown lines old new := by
  refine linked.imp (fun holds => ⟨_, holds, h.joins_link short short' place⟩) ?_
  rintro ⟨e, start, before, empty, replaced, stop, earlier, le, holds⟩
  have begins := h.begins_of_replacedAt replaced
  obtain ⟨rest, text⟩ := begins.text
  obtain ⟨rest', text'⟩ := (h.isPrefix_of_place earlier).1
  obtain ⟨more, rfl, -⟩ := eq_append_of_byteLength_le (text'.trans text.symm) le
  exact ⟨e, _, before, empty, begins, stop, List.prefix_append _ _, _, holds,
    h.joins_link short short' earlier⟩

/-- The position map of an edited text is sound and complete. -/
theorem traces_positionMap {text : String} {edits : List TextEdit}
    (accepted : (ofText text).overwriteAll edits = .ok b) (short : units text.toList < 2 ^ 32)
    (short' : units b.render.toList < 2 ^ 32) (file source : String) :
    ∃ lines, (b.positionMap file source).lines = .ok lines ∧ b.Traces lines := by
  obtain ⟨sound, same, -⟩ := (sound_ofText text).overwriteAll accepted
  rw [show text = b.text from same.symm] at short
  refine ⟨_, sound.lines_positionMap short' file source, ⟨(sound.follows short').shows.length,
    sound.tracedLines_ordered short', fun line s holds => ?_, fun e mem => ?_,
    fun c old new unchanged visible place => ?_⟩⟩
  · obtain ⟨old, new, place, rfl, rfl⟩ := sound.place_of_holds short' holds
    refine ⟨old, new, rfl, sound.joins_link short short' place, ?_⟩
    cases place with
    | kept kept => exact .inl ⟨_, sound.unchanged_of_keptAt kept, kept.isPrefix_render⟩
    | replaced replaced =>
      exact .inr ⟨_, sound.begins_of_replacedAt replaced, replaced.isPrefix_render⟩
  · obtain ⟨old, new, replaced⟩ := sound.exists_replacedAt mem
    exact ⟨old, new, sound.begins_of_replacedAt replaced, sound.shown_of_linked short short'
      (.replaced replaced) (sound.linked_of_replaced short' replaced)⟩
  · obtain ⟨previous, kept⟩ := sound.exists_keptAt_of_unchanged unchanged
    exact sound.shown_of_linked short short' (.kept kept) (sound.linked_of_kept short' kept visible
      (place.imp_right (sound.isBreak_of_keptAt kept)))

/-- Two neighbours are taken out in front of a replacement that ends a line. The segment of the first one
stands where all three are rendered. -/
theorem traces_neighbours : ∃ b, (ofText "𝒳(f)+ ok;").overwriteAll
      [⟨⟨5, 6⟩, "g\n"⟩, ⟨⟨0, 4⟩, ""⟩, ⟨⟨4, 5⟩, ""⟩] = .ok b ∧
    units "𝒳(f)+ ok;".toList < 2 ^ 32 ∧ units b.render.toList < 2 ^ 32 ∧
    let lines := [[⟨0, some ⟨0, 0, 0, none⟩⟩], [⟨0, some ⟨0, 0, 4, none⟩⟩,
      ⟨1, some ⟨0, 0, 5, none⟩⟩, ⟨3, some ⟨0, 0, 7, none⟩⟩, ⟨5, some ⟨0, 0, 9, none⟩⟩]]
    (b.positionMap "a.js" "a.js").lines = .ok lines ∧ b.Traces lines := by
  let b : EditBuffer := ⟨"𝒳(f)+ ok;", [⟨⟨0, 4⟩, ""⟩, ⟨⟨4, 5⟩, ""⟩, ⟨⟨5, 6⟩, "g\n"⟩]⟩
  have accepted : (ofText "𝒳(f)+ ok;").overwriteAll
      [⟨⟨5, 6⟩, "g\n"⟩, ⟨⟨0, 4⟩, ""⟩, ⟨⟨4, 5⟩, ""⟩] = .ok b := by decide +kernel
  have short : units "𝒳(f)+ ok;".toList < 2 ^ 32 := by decide +kernel
  have short' : units b.render.toList < 2 ^ 32 := by decide +kernel
  obtain ⟨sound, -, -⟩ := (sound_ofText _).overwriteAll accepted
  obtain ⟨lines, read, traces⟩ := traces_positionMap accepted short short' "a.js" "a.js"
  have same : lines = b.tracedLines :=
    Except.ok.inj (read.symm.trans (sound.lines_positionMap short' "a.js" "a.js"))
  have walked : b.tracedLines = [[⟨0, some ⟨0, 0, 0, none⟩⟩], [⟨0, some ⟨0, 0, 4, none⟩⟩,
      ⟨1, some ⟨0, 0, 5, none⟩⟩, ⟨3, some ⟨0, 0, 7, none⟩⟩, ⟨5, some ⟨0, 0, 9, none⟩⟩]] := by
    decide +kernel
  rw [same, walked] at read traces
  exact ⟨b, accepted, short, short', read, traces⟩

end EditBuffer
end Apportion
