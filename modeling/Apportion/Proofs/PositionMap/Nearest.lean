import Apportion.Proofs.PositionMap.Join
import Mathlib.Data.List.Induction

/-!
Where a composed map leads. Outer segments that lead nowhere in the inner map are dropped, so that a
composed map answers for a place by the nearest outer segment that is left, and then as the inner map
does (`place_lookup_compose`). This is the answer of the two maps one after the other wherever they
have one (`lookup_compose_nearest`), but a place behind a dropped segment gets the answer of a
segment before it (`dropped_segment_answered`).
-/
namespace Apportion

/-- The last result is that of the last element which has one. -/
theorem List.getLast?_filterMap_filter {α β : Type} {f : α → Option β} {keep : α → Bool}
    (there : ∀ a, (f a).isSome = keep a) (l : List α) :
    (l.filterMap f).getLast? = (l.filter keep).getLast?.bind f := by
  induction l using List.reverseRecOn with
  | nil => rfl
  | append_singleton l a ih =>
    have here := there a
    rw [List.filterMap_append, List.filter_append]
    cases hf : f a with
    | none =>
      rw [hf] at here
      simp [hf, ← here, ih]
    | some b =>
      rw [hf] at here
      simp [hf, ← here]

/-- A filter can be moved in front of a partial map that keeps what is asked. -/
theorem List.filter_filterMap_comm {α β : Type} {f : α → Option β} {p : β → Bool} {q : α → Bool}
    (same : ∀ a b, f a = some b → p b = q a) (l : List α) :
    (l.filterMap f).filter p = (l.filter q).filterMap f := by
  rw [List.filter_filterMap, List.filterMap_filter]
  refine congrArg (List.filterMap · l) (funext fun a => ?_)
  cases h : f a with
  | none => simp
  | some b => simp [Option.filter, same a b h]

theorem List.getLast?_filter_of_keep {α : Type} {keep : α → Bool} {l : List α} {a : α}
    (last : l.getLast? = some a) (h : keep a = true) : (l.filter keep).getLast? = some a := by
  obtain ⟨front, rfl⟩ := List.getLast?_eq_some_iff.mp last
  simp [h]

namespace PositionMap

/-! ## The nearest segment with an answer -/

def Landing.place (t : Landing) : Option (Option String) × UInt32 × UInt32 :=
  (t.source, t.line, t.column)

/-- Whether a map has an answer for the origin of a segment; one without origin needs none. -/
def answers (inner : PositionMap) (s : Segment) : Bool :=
  s.origin.all fun place => (inner.lookup place.line.toNat place.column.toNat).isSome

/-- What the inner map answers for the last outer segment, at or before a column of a line, that has
no origin or one with an answer. -/
def lookupThrough (outer inner : PositionMap) (line column : Nat) : Option Landing := do
  let lines ← outer.lines.toOption
  let segments ← lines[line]?
  let s ← (segments.filter fun s => inner.answers s && s.column.toNat ≤ column).getLast?
  let place ← s.origin
  inner.lookup place.line.toNat place.column.toNat

section
variable {outer inner composed : PositionMap} {outerLines innerLines : Lines}

theorem answers_eq_isCarried (hi : inner.lines = .ok innerLines) (s : Segment) :
    inner.answers s = isCarried innerLines s := by
  unfold answers isCarried onward
  cases s.origin with
  | none => rfl
  | some place =>
    rw [Option.all_some, lookup_eq hi, Option.isSome_map, Option.isNone_some, Bool.false_or,
      Option.bind_some]

theorem lookupThrough_eq (ho : outer.lines = .ok outerLines) (line column : Nat) :
    outer.lookupThrough inner line column = outerLines[line]?.bind fun segments =>
      (segments.filter fun s => inner.answers s && s.column.toNat ≤ column).getLast?.bind fun s =>
        s.origin.bind fun place => inner.lookup place.line.toNat place.column.toNat := by
  unfold lookupThrough
  rw [ho]
  rfl

/-- The segment that answers on a composed line is what the nearest segment becomes. -/
theorem getLast?_carriedLine (hi : inner.lines = .ok innerLines) (sources : List UInt32)
    (names : List String) (segments : List Segment) (column : Nat) :
    (((segments.filterMap (carry outer inner innerLines)).map (Joined.segment sources names)).filter
        fun s => s.column.toNat ≤ column).getLast? =
      (segments.filter fun s => inner.answers s && s.column.toNat ≤ column).getLast?.bind fun s =>
        (carry outer inner innerLines s).map (Joined.segment sources names) := by
  have level (s t : Segment)
      (h : (carry outer inner innerLines s).map (Joined.segment sources names) = some t) :
      decide (t.column.toNat ≤ column) = decide (s.column.toNat ≤ column) := by
    obtain ⟨j, hj, rfl⟩ := Option.map_eq_some_iff.mp h
    rw [Joined.segment, column_of_carry hj]
  have there (s : Segment) :
      ((carry outer inner innerLines s).map (Joined.segment sources names)).isSome =
        inner.answers s := by
    rw [Option.isSome_map, isSome_carry, answers_eq_isCarried hi]
  rw [List.map_filterMap, List.filter_filterMap_comm level,
    List.getLast?_filterMap_filter there, List.filter_filter]

/-- What a segment becomes leads where the inner map leads from it. -/
theorem place_of_becomes {used : List UInt32} {s t : Segment} (hi : inner.lines = .ok innerLines)
    (h : Becomes outer inner composed innerLines used s t) (answered : inner.answers s = true) :
    (t.origin.map composed.landing).map Landing.place =
      (s.origin.bind fun place =>
        inner.lookup place.line.toNat place.column.toNat).map Landing.place := by
  cases hs : s.origin with
  | none =>
    rw [h.sourceless hs]
    rfl
  | some place =>
    have leads : (onward innerLines s).isSome = true := by
      rw [answers_eq_isCarried hi, isCarried, hs] at answered
      exact answered
    obtain ⟨o, leads⟩ := Option.isSome_iff_exists.mp leads
    obtain ⟨o', origin, there⟩ := h.sourced place o hs leads
    rw [onward, hs, Option.bind_some] at leads
    rw [origin, Option.bind_some, lookup_eq hi, leads]
    simp only [Option.map_some, Landing.place, landing, there.source, there.line, there.column]

/-- A composed map answers as the inner map does for the nearest outer segment that is left. -/
theorem place_lookup_compose (h : compose outer inner = .ok composed) (line column : Nat) :
    (composed.lookup line column).map Landing.place =
      (outer.lookupThrough inner line column).map Landing.place := by
  obtain ⟨outerLines, innerLines, _, ho, hi, -⟩ := compose_eq_ok.mp h
  obtain ⟨within, rfl⟩ := (compose_eq_ok_iff ho hi).mp h
  rw [lookup_eq (lines_assembled inner innerLines ho), lookupThrough_eq ho, segmentAt,
    getElem?_joinedLines]
  cases found : outerLines[line]? with
  | none => rfl
  | some segments =>
    simp only [Option.map_some, Option.bind_some, getLast?_carriedLine hi]
    cases nearest : (segments.filter fun s =>
        inner.answers s && s.column.toNat ≤ column).getLast? with
    | none => rfl
    | some s =>
      obtain ⟨hs, answered⟩ := mem_of_getLast?_filter nearest
      rw [Bool.and_eq_true] at answered
      have carried : (carry outer inner innerLines s).isSome = true := by
        rw [isSome_carry, ← answers_eq_isCarried hi]
        exact answered.1
      obtain ⟨j, hj⟩ := Option.isSome_iff_exists.mp carried
      have becomes := becomes_of_carry within (List.mem_of_getElem? found) hs hj
      rw [Option.bind_some, Option.bind_some, hj, Option.map_some, Option.bind_some]
      exact place_of_becomes hi becomes answered.1

/-- Where the two maps one after the other have an answer, or the outer one has none, nothing has been
dropped. -/
theorem lookupThrough_of_answered (ho : outer.lines = .ok outerLines) {line column : Nat}
    (answered : ∀ t, outer.lookup line column = some t →
      inner.lookup t.line.toNat t.column.toNat ≠ none) :
    outer.lookupThrough inner line column =
      (outer.lookup line column).bind fun t => inner.lookup t.line.toNat t.column.toNat := by
  rw [lookupThrough_eq ho]
  rw [lookup_eq ho, segmentAt] at answered ⊢
  cases found : outerLines[line]? with
  | none => rfl
  | some segments =>
    simp only [found, Option.bind_some] at answered ⊢
    simp only [← List.filter_filter]
    generalize (segments.filter fun s => decide (s.column.toNat ≤ column)) = before at answered ⊢
    cases last : before.getLast? with
    | none =>
      rw [List.getLast?_eq_none_iff.mp last]
      rfl
    | some s =>
      have keep : inner.answers s = true := by
        cases hs : s.origin with
        | none => simp [answers, hs]
        | some place =>
          have there := answered (outer.landing place) (by rw [last, Option.bind_some, hs]; rfl)
          rw [answers, hs, Option.all_some, Option.isSome_iff_ne_none]
          exact there
      rw [List.getLast?_filter_of_keep last keep, Option.bind_some, Option.bind_some]
      cases s.origin <;> rfl

end

/-- At every place a composed map answers as the inner map does for the nearest outer segment that has
no origin or one with an answer. This is the answer of the outer map followed by the inner one, unless
the outer map leads to where the inner map has no answer. -/
theorem lookup_compose_nearest {outer inner composed : PositionMap}
    (h : compose outer inner = .ok composed) (line column : Nat) :
    (composed.lookup line column).map Landing.place =
      (outer.lookupThrough inner line column).map Landing.place ∧
    ((∀ t, outer.lookup line column = some t → inner.lookup t.line.toNat t.column.toNat ≠ none) →
      (composed.lookup line column).map Landing.place =
        ((outer.lookup line column).bind fun t =>
          inner.lookup t.line.toNat t.column.toNat).map Landing.place) := by
  obtain ⟨outerLines, _, _, ho, -⟩ := compose_eq_ok.mp h
  refine ⟨place_lookup_compose h line column, fun answered => ?_⟩
  rw [place_lookup_compose h, lookupThrough_of_answered ho answered]

/-- Behind a segment that leads nowhere, a composed map answers as before it. -/
theorem lookup_compose_nearest_dropped :
    let outer := ofLines none [some "m.js"] [] [[⟨0, some ⟨0, 0, 0, none⟩⟩, ⟨5, some ⟨0, 1, 0, none⟩⟩]]
    let inner := ofLines none [some "a.ts"] [] [[⟨0, some ⟨0, 7, 2, none⟩⟩]]
    ∃ composed, compose outer inner = .ok composed ∧
      (composed.lookup 0 5).map Landing.place = (outer.lookupThrough inner 0 5).map Landing.place ∧
      (composed.lookup 0 4).map Landing.place =
        ((outer.lookup 0 4).bind fun t => inner.lookup t.line.toNat t.column.toNat).map
          Landing.place := by
  intro outer inner
  have read : outer.lines = .ok _ := lines_of_encode rfl (by decide) (by decide)
  have read' : inner.lines = .ok _ := lines_of_encode rfl (by decide) (by decide)
  have made := compose_eq_ok.mpr ⟨_, _, _, read, read', rfl, rfl⟩
  refine ⟨_, made, (lookup_compose_nearest made 0 5).1, (lookup_compose_nearest made 0 4).2 ?_⟩
  have there : outer.lookup 0 4 = some ⟨some (some "m.js"), 0, 0, none⟩ := by
    rw [lookup_eq read]
    decide +kernel
  rintro t ht
  cases there.symm.trans ht
  rw [lookup_eq read']
  decide +kernel

/-- Dropped segments make a composed map answer where the two maps have no answer. -/
theorem dropped_segment_answered :
    let outer := ofLines none [some "m.js"] [] [[⟨0, some ⟨0, 0, 0, none⟩⟩, ⟨5, some ⟨0, 1, 0, none⟩⟩]]
    let inner := ofLines none [some "a.ts"] [] [[⟨0, some ⟨0, 7, 2, none⟩⟩]]
    ∃ composed, compose outer inner = .ok composed ∧
      (composed.lookup 0 5).map Landing.place ≠
        ((outer.lookup 0 5).bind fun t => inner.lookup t.line.toNat t.column.toNat).map
          Landing.place := by
  intro outer inner
  have read : outer.lines = .ok _ := lines_of_encode rfl (by decide) (by decide)
  have read' : inner.lines = .ok _ := lines_of_encode rfl (by decide) (by decide)
  refine ⟨inner, compose_eq_ok.mpr ⟨_, _, _, read, read', rfl, by decide +kernel⟩, ?_⟩
  simp only [lookup_eq read, lookup_eq read']
  decide +kernel

end PositionMap
end Apportion
