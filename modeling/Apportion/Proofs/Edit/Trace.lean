import Apportion.Proofs.Edit.Places
import Mathlib.Data.List.Induction

/-!
What an edited text is traced to. The walk knows line and column of its place in both texts and marks
nothing but places (`Walk.Follows`), so each segment links the two ends of one (`Sound.place_of_holds`).
It passes no replacement and no kept character at a break without a segment, unless an edit with an
empty replacement has left its own there (`Walk.Reached`, `Sound.linked_of_replaced`,
`Sound.linked_of_kept`).
-/
namespace Apportion
open Text PositionMap

namespace EditBuffer

/-! ## Segments of lines -/

def Holds (lines : Lines) (line : Nat) (s : Segment) : Prop :=
  ∃ segments, lines[line]? = some segments ∧ s ∈ segments

theorem holds_snoc {lines : Lines} {segments : List Segment} {line : Nat} {s : Segment} :
    Holds (lines ++ [segments]) line s ↔
      Holds lines line s ∨ line = lines.length ∧ s ∈ segments := by
  unfold Holds
  rcases Nat.lt_trichotomy line lines.length with before | rfl | behind
  · simp [List.getElem?_append_left before, Nat.ne_of_lt before]
  · simp
  · have none : (lines ++ [segments])[line]? = none :=
      List.getElem?_eq_none (by rw [List.length_append, List.length_singleton]; omega)
    simp [none, List.getElem?_eq_none (Nat.le_of_lt behind), Nat.ne_of_gt behind]

/-- The place is linked, or an edit with an empty replacement ends there in the text and an earlier
place is linked to where it is rendered. -/
def Linked (lines : Lines) (b : EditBuffer) (old new : List Char) : Prop :=
  Holds lines (lineOf new) (link old new) ∨
    ∃ e start before, e.replacement = "" ∧ b.ReplacedAt e start new ∧
      e.range.stop = byteLength old ∧ b.Place before new ∧ byteLength before ≤ byteLength start ∧
      Holds lines (lineOf new) (link before new)

theorem Linked.mono {lines lines' : Lines} {b : EditBuffer} {old new : List Char}
    (h : Linked lines b old new) (more : ∀ line s, Holds lines line s → Holds lines' line s) :
    Linked lines' b old new :=
  h.imp (more _ _) fun ⟨e, start, before, empty, replaced, stop, place, earlier, holds⟩ =>
    ⟨e, start, before, empty, replaced, stop, place, earlier, more _ _ holds⟩

/-- A place is linked if nothing is replaced by nothing. -/
theorem Linked.holds {lines : Lines} {b : EditBuffer} {old new : List Char}
    (h : Linked lines b old new) (nonempty : ∀ e ∈ b.edits, e.replacement ≠ "") :
    Holds lines (lineOf new) (link old new) :=
  h.resolve_right fun ⟨e, _, _, empty, replaced, _⟩ => nonempty e replaced.mem empty

/-- Behind a range that is replaced by nothing, the place it had is the one in the way. -/
theorem Linked.behind {lines : Lines} {b : EditBuffer} {e : TextEdit} {old new gone : List Char}
    (h : Linked lines b old new) (replaced : b.ReplacedAt e old new) (empty : e.replacement = "")
    (stop : byteLength (old ++ gone) = e.range.stop) : Linked lines b (old ++ gone) new := by
  refine .inr ?_
  rcases h with holds | ⟨e', start, before, -, replaced', stop', place, earlier, holds⟩
  · exact ⟨e, old, old, empty, replaced, stop.symm, .replaced replaced, Nat.le_refl _, holds⟩
  · refine ⟨e, old, before, empty, replaced, stop.symm, place, Nat.le_trans earlier ?_, holds⟩
    rw [← stop']
    exact replaced'.start_le_stop

namespace Walk
variable {w : Walk} {old new : List Char}

/-! ## The columns of a line -/

theorem lines_eq (w : Walk) : w.lines = w.finished.reverse ++ [w.current.reverse] := by
  simp [lines]

/-- A line break starts a line without segments. -/
theorem lines_advance (w : Walk) (c : Char) :
    (w.advance c).lines = if c = '\n' then w.lines ++ [[]] else w.lines := by
  by_cases h : c = '\n' <;> simp [advance, lines, h]

/-- The walk has come to the end of a rendered text, with segments in the order of their columns. -/
structure Shows (w : Walk) (new : List Char) : Prop where
  generated : w.generated = positionOf new
  length : w.lines.length = lineOf new + 1
  ordered : ∀ line ∈ w.lines, line.Pairwise fun s t => s.column < t.column

/-- Nothing is marked at the place of the walk or behind it. -/
def Fresh (w : Walk) : Prop := ∀ s ∈ w.current, s.column < w.generated.column

/-- Nothing is marked behind the place of the walk. -/
def Level (w : Walk) : Prop := ∀ s ∈ w.current, s.column ≤ w.generated.column

theorem Fresh.level (h : w.Fresh) : w.Level := fun s hs => UInt32.le_of_lt (h s hs)

/-- The segment that links the two places of the walk. -/
def here (w : Walk) : Segment :=
  ⟨w.generated.column, some ⟨0, w.source.line, w.source.column, none⟩⟩

theorem mark_of_fresh (h : w.Fresh) : w.mark = { w with current := w.here :: w.current } := by
  unfold mark
  rw [if_neg]
  · rfl
  · intro same
    obtain ⟨s, head, e⟩ := (Option.any_eq_true _ _).mp same
    have lt := h s (List.mem_of_mem_head? head)
    rw [beq_iff_eq.mp e] at lt
    exact UInt32.lt_irrefl _ lt

theorem lines_mark_of_fresh (h : w.Fresh) :
    w.mark.lines = w.finished.reverse ++ [w.current.reverse ++ [w.here]] := by
  rw [mark_of_fresh h, lines_eq, List.reverse_cons]

/-- The walk has no segment at its place, or a mark there changes nothing. -/
theorem Shows.fresh_or_mark_eq (h : w.Shows new) (level : w.Level) : w.Fresh ∨ w.mark = w := by
  have ordered := h.ordered w.current.reverse (by simp [lines_eq])
  unfold Fresh mark
  cases current : w.current with
  | nil => exact .inl fun s hs => absurd hs List.not_mem_nil
  | cons last segments =>
    rw [List.pairwise_reverse, current] at ordered
    by_cases same : last.column = w.generated.column
    · exact .inr (if_pos (by simp [same]))
    · refine .inl fun s hs => ?_
      have first : last.column < w.generated.column :=
        UInt32.lt_of_le_of_ne (level last (by simp [current])) same
      rcases List.mem_cons.mp hs with rfl | hs
      · exact first
      · exact UInt32.lt_trans ((List.pairwise_cons.mp ordered).1 s hs) first

theorem Shows.mark (h : w.Shows new) (level : w.Level) : w.mark.Shows new ∧ w.mark.Level := by
  rcases h.fresh_or_mark_eq level with fresh | same
  · have count := h.length
    rw [lines_eq] at count
    refine ⟨⟨?_, ?_, ?_⟩, ?_⟩
    · rw [mark_of_fresh fresh]
      exact h.generated
    · rw [lines_mark_of_fresh fresh]
      simpa using count
    · intro line hl
      rw [lines_mark_of_fresh fresh] at hl
      rcases List.mem_append.mp hl with finished | current
      · exact h.ordered line (by simpa [lines_eq] using .inl (List.mem_reverse.mp finished))
      · rw [List.mem_singleton.mp current, List.pairwise_append]
        refine ⟨h.ordered _ (by simp [lines_eq]), List.pairwise_singleton _ _, ?_⟩
        intro s hs t ht
        rw [List.mem_singleton.mp ht]
        exact fresh s (List.mem_reverse.mp hs)
    · rw [mark_of_fresh fresh]
      intro s hs
      rcases List.mem_cons.mp hs with rfl | hs
      · exact UInt32.le_refl _
      · exact level s hs
  · rw [same]
    exact ⟨h, level⟩

theorem Shows.advance (h : w.Shows new) (level : w.Level) {c : Char}
    (short : units (new ++ [c]) < 2 ^ 32) :
    (w.advance c).Shows (new ++ [c]) ∧ (w.advance c).Fresh := by
  have generated : (w.advance c).generated = positionOf (new ++ [c]) := by
    unfold Walk.advance
    split <;> simp [h.generated, advance_positionOf]
  refine ⟨⟨generated, ?_, ?_⟩, ?_⟩
  · rw [lines_advance, lineOf_snoc]
    split
    · rw [List.length_append, List.length_singleton, h.length]
    · exact h.length
  · rw [lines_advance]
    split
    · intro line hl
      rcases List.mem_append.mp hl with before | last
      · exact h.ordered line before
      · rw [List.mem_singleton.mp last]
        exact .nil
    · exact h.ordered
  · intro s hs
    by_cases line : c = '\n'
    · simp [Walk.advance, line] at hs
    · -- the column grows within a line
      have mem : s ∈ w.current := by simpa [Walk.advance, line] using hs
      have pos := units16_pos c
      have long : units new < 2 ^ 32 := by
        rw [units_append] at short
        omega
      have further : w.generated.column < (w.advance c).generated.column := by
        rw [generated, h.generated, UInt32.lt_iff_toNat_lt, toNat_column_positionOf long,
          toNat_column_positionOf short, columnOf_snoc, if_neg line]
        omega
      exact UInt32.lt_of_le_of_lt (level s mem) further

theorem Shows.foldl_advance (h : w.Shows new) (level : w.Level) {text : List Char}
    (ne : text ≠ []) (short : units (new ++ text) < 2 ^ 32) :
    (text.foldl Walk.advance w).Shows (new ++ text) ∧ (text.foldl Walk.advance w).Fresh := by
  induction text generalizing w new with
  | nil => exact absurd rfl ne
  | cons c text ih =>
    rw [List.append_cons] at short ⊢
    obtain ⟨shows, fresh⟩ := h.advance level (c := c) (by
      rw [units_append] at short
      omega)
    by_cases last : text = []
    · subst last
      simpa using ⟨shows, fresh⟩
    · exact ih shows fresh.level last short

/-! ## Segments that stay -/

section
variable {line : Nat} {s : Segment}

/-- A mark adds the segment of the place to the last line, or nothing. -/
theorem of_holds_mark (h : Holds w.mark.lines line s) :
    Holds w.lines line s ∨ line + 1 = w.lines.length ∧ s = w.here := by
  unfold Walk.mark at h
  split at h
  · exact .inl h
  · rw [lines_eq, List.reverse_cons, holds_snoc] at h
    rw [lines_eq, holds_snoc]
    rcases h with finished | ⟨last, mem⟩
    · exact .inl (.inl finished)
    · rcases List.mem_append.mp mem with mem | mem
      · exact .inl (.inr ⟨last, mem⟩)
      · exact .inr ⟨by simp [last], List.mem_singleton.mp mem⟩

theorem holds_mark (h : Holds w.lines line s) : Holds w.mark.lines line s := by
  unfold Walk.mark
  split
  · exact h
  · rw [lines_eq, holds_snoc] at h ⊢
    rw [List.reverse_cons]
    exact h.imp_right fun last => ⟨last.1, List.mem_append_left _ last.2⟩

theorem holds_advance_iff (w : Walk) (c : Char) :
    Holds (w.advance c).lines line s ↔ Holds w.lines line s := by
  rw [lines_advance]
  split
  · simp [holds_snoc]
  · exact Iff.rfl

theorem holds_foldl_advance_iff (w : Walk) (text : List Char) :
    Holds (text.foldl Walk.advance w).lines line s ↔ Holds w.lines line s := by
  induction text generalizing w with
  | nil => exact Iff.rfl
  | cons c text ih => exact (ih _).trans (holds_advance_iff w c)

theorem holds_foldl_keep (text : List Char) (h : Holds w.lines line s) :
    Holds (text.foldl Walk.keep w).lines line s := by
  induction text generalizing w with
  | nil => exact h
  | cons c text ih =>
    refine ih ((holds_advance_iff _ c).mpr ?_)
    split
    · exact holds_mark h
    · exact h

theorem holds_foldl_pass (stretches : List Stretch) (h : Holds w.lines line s) :
    Holds (stretches.foldl Walk.pass w).lines line s := by
  induction stretches generalizing w with
  | nil => exact h
  | cons stretch stretches ih =>
    refine ih ?_
    cases stretch with
    | kept text => exact holds_foldl_keep text h
    | replaced old new => exact (holds_foldl_advance_iff _ new).mpr (holds_mark h)

end

/-! ## Places of the walk -/

variable {b : EditBuffer}

theorem source_mark (w : Walk) : w.mark.source = w.source := by
  unfold mark
  split <;> rfl

theorem source_advance (w : Walk) (c : Char) : (w.advance c).source = w.source := by
  unfold advance
  split <;> rfl

theorem source_foldl_advance (w : Walk) (text : List Char) :
    (text.foldl Walk.advance w).source = w.source := by
  induction text generalizing w with
  | nil => rfl
  | cons c text ih => rw [List.foldl_cons, ih, source_advance]

/-- The walk has come to the end of a text and of what is rendered of it, and marked only places. -/
structure Follows (w : Walk) (b : EditBuffer) (old new : List Char) : Prop where
  shows : w.Shows new
  level : w.Level
  source : w.source = positionOf old
  places : ∀ line s, Holds w.lines line s →
    ∃ old new, b.Place old new ∧ line = lineOf new ∧ s = link old new

/-- The place of such a walk is free or linked. -/
structure Reached (w : Walk) (b : EditBuffer) (old new : List Char) : Prop
    extends Follows w b old new where
  free : w.Fresh ∨ Linked w.lines b old new

theorem reached_begin (b : EditBuffer) : begin.Reached b [] [] where
  shows := ⟨rfl, rfl, by simp [begin, lines]⟩
  level := by simp [begin, Level]
  source := rfl
  places line s h := by
    obtain ⟨segments, found, mem⟩ := h
    cases line <;> simp_all [begin, lines]
  free := .inl (by simp [begin, Fresh])

theorem Reached.mark (h : w.Reached b old new) (place : b.Place old new) :
    w.mark.Follows b old new ∧ Linked w.mark.lines b old new := by
  have here : w.here = link old new := by simp [Walk.here, link, h.shows.generated, h.source]
  obtain ⟨shows, level⟩ := h.shows.mark h.level
  refine ⟨⟨shows, level, (source_mark w).trans h.source, ?_⟩, ?_⟩
  · intro line s holds
    rcases of_holds_mark holds with before | ⟨last, rfl⟩
    · exact h.places line s before
    · rw [h.shows.length] at last
      exact ⟨old, new, place, Nat.succ_inj.mp last, here⟩
  · rcases h.free with fresh | linked
    · have last := h.shows.length
      rw [lines_eq, List.length_append, List.length_singleton, Nat.succ_inj] at last
      refine .inl ?_
      rw [lines_mark_of_fresh fresh, holds_snoc, here]
      exact .inr ⟨last.symm, by simp⟩
    · exact linked.mono fun _ _ => holds_mark

theorem Follows.advance (h : w.Follows b old new) {c : Char} (previous : Option Char)
    (short : units (new ++ [c]) < 2 ^ 32) :
    { w.advance c with source := (w.advance c).source.advance c, previous := previous }.Reached b
      (old ++ [c]) (new ++ [c]) := by
  obtain ⟨shows, fresh⟩ := h.shows.advance h.level short
  refine ⟨⟨⟨shows.generated, shows.length, shows.ordered⟩, fresh.level, ?_, ?_⟩, .inl fresh⟩
  · simp only
    rw [source_advance, h.source, advance_positionOf]
  · exact fun line s holds => h.places line s ((holds_advance_iff w c).mp holds)

theorem Reached.keep (h : w.Reached b old new) {c : Char} {previous : Option Char}
    (kept : b.KeptAt c old new previous) (short : units (new ++ [c]) < 2 ^ 32) :
    (w.keep c).Reached b (old ++ [c]) (new ++ [c]) := by
  unfold Walk.keep
  simp only
  split
  · exact (h.mark (.kept kept)).1.advance (some c) short
  · exact h.toFollows.advance (some c) short

theorem Reached.replace (h : w.Reached b old new) {e : TextEdit}
    (replaced : b.ReplacedAt e old new) {gone : List Char}
    (stop : byteLength (old ++ gone) = e.range.stop)
    (short : units (new ++ e.replacement.toList) < 2 ^ 32) :
    (w.pass (.replaced gone e.replacement.toList)).Reached b (old ++ gone)
      (new ++ e.replacement.toList) := by
  obtain ⟨marked, linked⟩ := h.mark (.replaced replaced)
  have source : (w.pass (.replaced gone e.replacement.toList)).source = positionOf (old ++ gone) := by
    simp only [Walk.pass]
    rw [source_foldl_advance, marked.source, foldl_advance_positionOf]
  have places : ∀ line s, Holds (w.pass (.replaced gone e.replacement.toList)).lines line s →
      ∃ old new, b.Place old new ∧ line = lineOf new ∧ s = link old new :=
    fun line s holds => marked.places line s ((holds_foldl_advance_iff w.mark _).mp holds)
  by_cases empty : e.replacement = ""
  · -- nothing is rendered, so what is marked here is in the way of what comes
    rw [empty] at source places ⊢
    rw [String.toList_empty, List.append_nil] at *
    exact ⟨⟨⟨marked.shows.generated, marked.shows.length, marked.shows.ordered⟩, marked.level, source,
      places⟩, .inr (linked.behind replaced empty stop)⟩
  · obtain ⟨shows, fresh⟩ := marked.shows.foldl_advance marked.level (by simpa using empty) short
    exact ⟨⟨⟨shows.generated, shows.length, shows.ordered⟩, fresh.level, source, places⟩, .inl fresh⟩

theorem Reached.foldl_keep {front back : List Stretch} {within rest : List Char}
    (h : w.Reached b (front.flatMap Stretch.original) (front.flatMap Stretch.rendered))
    (e : b.stretches = front ++ .kept (within ++ rest) :: back)
    (short : units b.render.toList < 2 ^ 32) :
    (within.foldl Walk.keep w).Reached b (front.flatMap Stretch.original ++ within)
      (front.flatMap Stretch.rendered ++ within) := by
  induction within using List.reverseRecOn generalizing rest with
  | nil => simpa using h
  | append_singleton within c ih =>
    have shown := units_le_of_isPrefix (isPrefix_render_of_kept e)
    rw [List.append_assoc] at e
    rw [List.foldl_append, ← List.append_assoc, ← List.append_assoc]
    refine (ih e).keep ⟨front, within, rest, back, e, rfl, rfl, rfl⟩ ?_
    rw [List.append_assoc]
    omega

theorem previous_foldl_keep (w : Walk) (text : List Char) :
    (text.foldl Walk.keep w).previous = text.getLast?.or w.previous := by
  induction text using List.reverseRecOn with
  | nil => rfl
  | append_singleton text c ih => simp [Walk.keep]

end Walk

/-! ## The whole walk -/

variable {b : EditBuffer} {old new : List Char}

theorem Sound.reached (h : b.Sound) (short : units b.render.toList < 2 ^ 32)
    {front back : List Stretch} (e : b.stretches = front ++ back) :
    (front.foldl Walk.pass .begin).Reached b (front.flatMap Stretch.original)
      (front.flatMap Stretch.rendered) := by
  induction front using List.reverseRecOn generalizing back with
  | nil => exact Walk.reached_begin b
  | append_singleton front stretch ih =>
    rw [List.append_assoc, List.singleton_append] at e
    have reached := ih e
    rw [List.foldl_append]
    simp only [List.foldl_cons, List.foldl_nil, List.flatMap_append, List.flatMap_singleton]
    cases stretch with
    | kept text =>
      have whole : b.stretches = front ++ .kept (text ++ []) :: back := by rw [e, List.append_nil]
      exact reached.foldl_keep whole short
    | replaced gone text =>
      obtain ⟨edit, rfl, stop, replaced⟩ := h.replacedAt_of_stretch e
      exact reached.replace replaced stop
        (Nat.lt_of_le_of_lt (units_le_of_isPrefix replaced.isPrefix_render) short)

theorem tracedLines_ne_nil (b : EditBuffer) : b.tracedLines ≠ [] := by
  simp [tracedLines, Walk.lines]

theorem Sound.follows (h : b.Sound) (short : units b.render.toList < 2 ^ 32) :
    (b.stretches.foldl Walk.pass .begin).Follows b b.text.toList b.render.toList := by
  have reached := h.reached short (List.append_nil b.stretches).symm
  rw [h.cutAt.original] at reached
  rw [render, String.toList_ofList]
  exact reached.toFollows

theorem Sound.tracedLines_ordered (h : b.Sound) (short : units b.render.toList < 2 ^ 32) :
    ∀ line ∈ b.tracedLines, line.Pairwise fun s t => s.column < t.column :=
  (h.follows short).shows.ordered

theorem Sound.place_of_holds (h : b.Sound) (short : units b.render.toList < 2 ^ 32) {line : Nat}
    {s : Segment} (holds : Holds b.tracedLines line s) :
    ∃ old new, b.Place old new ∧ line = lineOf new ∧ s = link old new :=
  (h.follows short).places line s holds

theorem Sound.linked_of_replaced (h : b.Sound) (short : units b.render.toList < 2 ^ 32)
    {e : TextEdit} (replaced : b.ReplacedAt e old new) : Linked b.tracedLines b old new := by
  obtain ⟨front, gone, back, stretches, rfl, rfl, -⟩ := replaced.stretch
  have marked := ((h.reached short stretches).mark (.replaced replaced)).2
  rw [tracedLines, stretches, List.foldl_append, List.foldl_cons]
  exact marked.mono fun _ _ holds =>
    Walk.holds_foldl_pass back ((Walk.holds_foldl_advance_iff _ _).mpr holds)

/-- A kept character at a break, or at the beginning of a rendered line, is linked to the place it had
in the text. -/
theorem Sound.linked_of_kept (h : b.Sound) (short : units b.render.toList < 2 ^ 32) {c : Char}
    {previous : Option Char} (kept : b.KeptAt c old new previous) (visible : isBlank c = false)
    (first : columnOf new = 0 ∨ isBreak previous c = true) : Linked b.tracedLines b old new := by
  have place : b.Place old new := .kept kept
  obtain ⟨front, within, rest, back, e, rfl, rfl, rfl⟩ := kept
  have reached := (h.reached short e).foldl_keep e short
  have previous : (within.foldl Walk.keep (front.foldl Walk.pass .begin)).previous =
      within.getLast? := by
    rw [Walk.previous_foldl_keep]
    have none : (front.foldl Walk.pass .begin).previous = none := by
      rcases h.cutAt.replaced_before e with rfl | ⟨most, old, new, rfl⟩
      · rfl
      · rw [List.foldl_append]
        rfl
    rw [none, Option.or_none]
  have whole : b.stretches.foldl Walk.pass .begin = back.foldl Walk.pass (rest.foldl Walk.keep
      ((within.foldl Walk.keep (front.foldl Walk.pass .begin)).keep c)) := by
    rw [e, List.foldl_append, List.foldl_cons]
    simp only [Walk.pass, List.foldl_append, List.foldl_cons]
  rw [tracedLines, whole]
  generalize within.foldl Walk.keep (front.foldl Walk.pass .begin) = w at reached previous
  have marked : (!isBlank c && (w.generated.column == 0 || isBreak w.previous c)) = true := by
    rw [visible, previous, reached.shows.generated]
    rcases first with zero | isBreak
    · simp [positionOf, zero]
    · simp [isBreak]
  refine (reached.mark place).2.mono fun line s holds =>
    Walk.holds_foldl_pass back (Walk.holds_foldl_keep rest ?_)
  have seen := (Walk.holds_advance_iff w.mark c).mpr holds
  unfold Walk.keep
  simp only [marked, ↓reduceIte]
  exact seen

end EditBuffer
end Apportion
