import Apportion.Proofs.PositionMap.RoundTrip
import Mathlib.Algebra.Ring.Int.Defs
import Mathlib.Data.List.Induction

/-!
Numbers of mappings over all integers. Each number has the value of its digits, and the quantities of a
segment are sums of the numbers up to it (`AddUp`). Reading keeps numbers in words of 64 bits, so what
is read adds up exactly if the digits of every number stay below half of what a word can hold
(`decode_addUp_iff`).
-/
namespace Apportion.PositionMap
open Text

/-! ## Digits -/

/-- What digits are worth, the lowest first and five bits of each. -/
def magnitude : List Nat → Nat
  | [] => 0
  | d :: ds => d % 32 + 32 * magnitude ds

/-- The number that digits write, its sign in the lowest bit. -/
def exactNumber (digits : List Nat) : Int :=
  if magnitude digits % 2 = 1 then -(magnitude digits / 2 : Nat) else (magnitude digits / 2 : Nat)

/-- Digits cut into those of single numbers, behind every digit without the sixth bit. -/
def cutNumbers : List Nat → List (List Nat)
  | [] => []
  | d :: ds =>
    if d < 32 then [d] :: cutNumbers ds
    else
      match cutNumbers ds with
      | [] => [[d]]
      | number :: numbers => (d :: number) :: numbers

theorem magnitude_snoc (ds : List Nat) (d : Nat) :
    magnitude (ds ++ [d]) = magnitude ds + d % 32 * 2 ^ (5 * ds.length) := by
  induction ds with
  | nil => simp [magnitude]
  | cons c ds ih =>
    rw [List.cons_append, magnitude, magnitude, ih, List.length_cons,
      show 5 * (ds.length + 1) = 5 + 5 * ds.length by omega, Nat.pow_add]
    grind

theorem cutNumbers_append {front : List Nat} (goesOn : ∀ d ∈ front, 32 ≤ d) {last : Nat}
    (stops : last < 32) (rest : List Nat) :
    cutNumbers (front ++ last :: rest) = (front ++ [last]) :: cutNumbers rest := by
  induction front with
  | nil => simp [cutNumbers, stops]
  | cons d front ih =>
    simp only [List.forall_mem_cons] at goesOn
    rw [List.cons_append, cutNumbers, if_neg (by omega), ih goesOn.2]
    rfl

/-! ## Numbers -/

theorem wrap_add_wrap (m n : Int) : wrap (wrap m + wrap n) = wrap (m + n) := by
  simp [wrap]

theorem signed_of_small {n : Nat} (small : n < 2 ^ 63) (digits : List Nat)
    (e : n = magnitude digits) : signed (wrap n) = exactNumber digits := by
  rw [wrap_eq_self (by omega) (by omega), signed, exactNumber, ← e]
  split <;> split <;> omega

/-- The numbers of a text that is read are its digits' worth, kept in words. -/
theorem eq_of_numbersFrom (front : List Nat) {text : List Char} {numbers : List Int}
    (goesOn : ∀ d ∈ front, 32 ≤ d)
    (h : numbersFrom (wrap (magnitude front)) (5 * front.length) text = .ok numbers) :
    numbers = (cutNumbers (front ++ text.filterMap digitOf)).map fun digits =>
      signed (wrap (magnitude digits)) := by
  induction text generalizing front numbers with
  | nil =>
    rw [numbersFrom] at h
    split at h
    · cases h
      have none : front = [] := List.length_eq_zero_iff.mp (by omega)
      simp [none, cutNumbers]
    · cases h
  | cons c text ih =>
    rw [numbersFrom] at h
    cases digit : digitOf c with
    | none => simp [digit] at h
    | some d =>
      simp only [digit] at h
      split at h
      · cases h
      · have sum : wrap (wrap (magnitude front) + addend d (5 * front.length)) =
            wrap (magnitude (front ++ [d])) := by
          rw [addend, wrap_add_wrap, magnitude_snoc, Nat.shiftLeft_eq]
          push_cast
          rfl
        rw [sum] at h
        rw [List.filterMap_cons_some digit]
        split at h
        · rename_i more
          have next := ih (front ++ [d]) (fun e he => ?_) (by
            rw [List.length_append]
            exact h)
          · simpa using next
          · rcases List.mem_append.mp he with he | he
            · exact goesOn e he
            · rw [List.mem_singleton.mp he]
              exact more
        · rename_i stops
          obtain ⟨later, read, rfl⟩ := Except.map_eq_ok.mp h
          have next := ih [] (by simp) read
          rw [cutNumbers_append goesOn (by omega), List.map_cons, next]
          rfl

def segmentNumbers (text : List Char) : List (List Nat) := cutNumbers (text.filterMap digitOf)

theorem numbers_of_small {text : List Char} {numbers : List Int}
    (h : PositionMap.numbers text = .ok numbers)
    (small : ∀ digits ∈ segmentNumbers text, magnitude digits < 2 ^ 63) :
    numbers = (segmentNumbers text).map exactNumber := by
  rw [eq_of_numbersFrom [] (by simp) h]
  exact List.map_congr_left fun digits hd => signed_of_small (small digits hd) digits rfl

theorem natAbs_exactNumber_lt {digits : List Nat} (small : magnitude digits < 2 ^ 63) :
    (exactNumber digits).natAbs < 2 ^ 62 := by
  unfold exactNumber
  split <;> omega

/-! ## Sums -/

def total (place : Nat) (segments : List (List Int)) : Int := (segments.filterMap (·[place]?)).sum

/-- A segment of some numbers with the sums of all numbers up to it: those on its line tell the
generated column, and those of all lines the place in a source and the name. -/
structure Segment.AddsUp (s : Segment) (onLine all : List (List Int)) (numbers : List Int) : Prop where
  column : (s.column.toNat : Int) = total 0 onLine
  shape : numbers.length = 1 ∧ s.origin = none ∨ ∃ o, s.origin = some o ∧
    (numbers.length = 4 ∧ o.name = none ∨
      numbers.length = 5 ∧ ∃ n, o.name = some n ∧ (n.toNat : Int) = total 4 all)
  origin : ∀ o, s.origin = some o → (o.source.toNat : Int) = total 1 all ∧
    (o.line.toNat : Int) = total 2 all ∧ (o.column.toNat : Int) = total 3 all

/-- Lines with a segment for the numbers of each segment, as they add up behind earlier ones. -/
structure Summed (earlier : List (List Int)) (numbers : List (List (List Int))) (lines : Lines) :
    Prop where
  shape : List.Forall₂ (fun line segments => List.length segments = List.length line) numbers lines
  each : ∀ front line back, numbers = front ++ line :: back → ∀ before segment after,
    line = before ++ segment :: after → ∃ segments s, lines[front.length]? = some segments ∧
      segments[before.length]? = some s ∧
      s.AddsUp (before ++ [segment]) (earlier ++ front.flatten ++ before ++ [segment]) segment

/-- Lines that hold what the numbers add up to over all integers, each put in order. -/
def AddUp (numbers : List (List (List Int))) (lines : Lines) : Prop :=
  ∃ read, Summed [] numbers read ∧ List.Forall₂ StablySorted read lines

/-- The sums behind some segments. -/
def sumsOf (all : List (List Int)) : Sums := ⟨total 1 all, total 2 all, total 3 all, total 4 all⟩

theorem total_snoc (place : Nat) (segments : List (List Int)) (numbers : List Int) :
    total place (segments ++ [numbers]) = total place segments + numbers[place]?.getD 0 := by
  cases h : numbers[place]? <;> simp [total, h]

theorem inRange_eq_ok {quantity : Quantity} {z : Int} {w : UInt32} (h : inRange quantity z = .ok w) :
    z = w.toNat := by
  unfold inRange at h
  split at h
  · rename_i within
    cases h
    have below : z.toNat < 2 ^ 32 := by omega
    rw [UInt32.toNat_ofNat_of_lt' below]
    omega
  · cases h

theorem wrap_add_small {z n : Int} (word : IsWord z) (small : n.natAbs < 2 ^ 62) :
    wrap (z + n) = z + n := by
  unfold IsWord at word
  rw [wrap_eq_self (by omega) (by omega)]

theorem origin_eq_ok {sums : Sums} {named : Bool} {o : Origin} (h : sums.origin named = .ok o) :
    sums.source = o.source.toNat ∧ sums.line = o.line.toNat ∧ sums.column = o.column.toNat ∧
    (named = false ∧ o.name = none ∨ ∃ n, named = true ∧ o.name = some n ∧ sums.name = n.toNat) := by
  have steps : sums.origin named =
      ((if named then (inRange .nameIndex sums.name).map some else .ok none) >>= fun name =>
        inRange .sourceIndex sums.source >>= fun source =>
        inRange .sourceLine sums.line >>= fun line =>
        inRange .sourceColumn sums.column >>= fun column => .ok ⟨source, line, column, name⟩) := by
    cases named <;> rfl
  rw [steps] at h
  obtain ⟨name, readName, h⟩ := Except.bind_eq_ok.mp h
  obtain ⟨source, readSource, h⟩ := Except.bind_eq_ok.mp h
  obtain ⟨line, readLine, h⟩ := Except.bind_eq_ok.mp h
  obtain ⟨column, readColumn, h⟩ := Except.bind_eq_ok.mp h
  cases h
  refine ⟨inRange_eq_ok readSource, inRange_eq_ok readLine, inRange_eq_ok readColumn, ?_⟩
  cases named with
  | false =>
    cases readName
    exact .inl ⟨rfl, rfl⟩
  | true =>
    obtain ⟨n, read, rfl⟩ := Except.map_eq_ok.mp readName
    exact .inr ⟨n, rfl, rfl, inRange_eq_ok read⟩

/-- A segment with an origin, four numbers without a name and five with one, tells the sums. -/
theorem addsUp_of_origin {onLine all : List (List Int)} {numbers : List Int} {named : Bool}
    {o : Origin} {c : UInt32} (length : numbers.length = if named then 5 else 4)
    (origin : (sumsOf all).origin named = .ok o)
    (read : inRange .generatedColumn (total 0 onLine) = .ok c)
    (unnamed : named = false → IsWord (total 4 all)) :
    (sumsOf all).Valid ∧ Segment.AddsUp ⟨c, some o⟩ onLine all numbers := by
  obtain ⟨source, line, column, name⟩ := origin_eq_ok origin
  have places : ∀ o', some o = some o' → (o'.source.toNat : Int) = total 1 all ∧
      (o'.line.toNat : Int) = total 2 all ∧ (o'.column.toNat : Int) = total 3 all := by
    rintro _ ⟨⟩
    exact ⟨source.symm, line.symm, column.symm⟩
  have words := And.intro (source ▸ isWord_toNat o.source)
    (And.intro (line ▸ isWord_toNat o.line) (column ▸ isWord_toNat o.column))
  rcases name with ⟨rfl, none⟩ | ⟨n, rfl, some, name⟩
  · exact ⟨⟨words.1, words.2.1, words.2.2, unnamed rfl⟩, (inRange_eq_ok read).symm,
      .inr ⟨o, rfl, .inl ⟨length, none⟩⟩, places⟩
  · exact ⟨⟨words.1, words.2.1, words.2.2, name ▸ isWord_toNat n⟩, (inRange_eq_ok read).symm,
      .inr ⟨o, rfl, .inr ⟨length, n, some, name.symm⟩⟩, places⟩

theorem addsUp_of_readSegment {onLine all : List (List Int)} {text : List Char} {numbers : List Int}
    {generated : Int} {sums : Sums} {s : Segment} (valid : (sumsOf all).Valid)
    (word : IsWord (total 0 onLine)) (exact : PositionMap.numbers text = .ok numbers)
    (small : ∀ n ∈ numbers, n.natAbs < 2 ^ 62)
    (h : readSegment (total 0 onLine) (sumsOf all) text = .ok (generated, sums, s)) :
    generated = total 0 (onLine ++ [numbers]) ∧ sums = sumsOf (all ++ [numbers]) ∧
    IsWord generated ∧ sums.Valid ∧ s.AddsUp (onLine ++ [numbers]) (all ++ [numbers]) numbers := by
  unfold readSegment at h
  rw [exact] at h
  obtain ⟨_, ⟨⟩, h⟩ := Except.bind_eq_ok.mp h
  have onward {g : Int} {more : List Int} (tiny : g.natAbs < 2 ^ 62) :
      wrap (total 0 onLine + g) = total 0 (onLine ++ [g :: more]) := by
    simp [total_snoc, wrap_add_small word tiny]
  obtain _ | ⟨g, _ | ⟨source, _ | ⟨line, _ | ⟨column, _ | ⟨name, _ | _⟩⟩⟩⟩⟩ := numbers
  case cons.nil =>
    simp only [List.forall_mem_cons] at small
    have behind : sumsOf all = sumsOf (all ++ [[g]]) := by simp [sumsOf, total_snoc]
    obtain ⟨c, read, h⟩ := Except.bind_eq_ok.mp h
    cases h
    rw [onward small.1] at read ⊢
    have here := inRange_eq_ok read
    exact ⟨rfl, behind, here ▸ isWord_toNat c, valid, here.symm, .inl ⟨rfl, rfl⟩, nofun⟩
  case cons.cons.cons.cons.nil =>
    simp only [List.forall_mem_cons] at small
    have behind : (⟨wrap ((sumsOf all).source + source), wrap ((sumsOf all).line + line),
        wrap ((sumsOf all).column + column), (sumsOf all).name⟩ : Sums) =
        sumsOf (all ++ [[g, source, line, column]]) := by
      rw [wrap_add_small valid.source small.2.1, wrap_add_small valid.line small.2.2.1,
        wrap_add_small valid.column small.2.2.2.1]
      simp [sumsOf, total_snoc]
    obtain ⟨o, origin, h⟩ := Except.bind_eq_ok.mp h
    obtain ⟨c, read, h⟩ := Except.bind_eq_ok.mp h
    cases h
    rw [behind] at origin ⊢
    rw [onward small.1] at read ⊢
    have name : (sumsOf all).name = total 4 (all ++ [[g, source, line, column]]) :=
      congrArg Sums.name behind
    exact ⟨rfl, rfl, inRange_eq_ok read ▸ isWord_toNat c,
      addsUp_of_origin rfl origin read fun _ => name ▸ valid.name⟩
  case cons.cons.cons.cons.cons.nil =>
    simp only [List.forall_mem_cons] at small
    have behind : (⟨wrap ((sumsOf all).source + source), wrap ((sumsOf all).line + line),
        wrap ((sumsOf all).column + column), wrap ((sumsOf all).name + name)⟩ : Sums) =
        sumsOf (all ++ [[g, source, line, column, name]]) := by
      rw [wrap_add_small valid.source small.2.1, wrap_add_small valid.line small.2.2.1,
        wrap_add_small valid.column small.2.2.2.1, wrap_add_small valid.name small.2.2.2.2.1]
      simp [sumsOf, total_snoc]
    obtain ⟨o, origin, h⟩ := Except.bind_eq_ok.mp h
    obtain ⟨c, read, h⟩ := Except.bind_eq_ok.mp h
    cases h
    rw [behind] at origin ⊢
    rw [onward small.1] at read ⊢
    exact ⟨rfl, rfl, inRange_eq_ok read ▸ isWord_toNat c, addsUp_of_origin rfl origin read nofun⟩
  all_goals cases h

theorem addsUp_of_readSegments {onLine all : List (List Int)} {texts : List (List Char)}
    {segments : List Segment} {sums : Sums} (valid : (sumsOf all).Valid)
    (word : IsWord (total 0 onLine))
    (small : ∀ text ∈ texts, ∀ digits ∈ segmentNumbers text, magnitude digits < 2 ^ 63)
    (h : readSegments (total 0 onLine) (sumsOf all) texts = .ok (segments, sums)) :
    sums = sumsOf (all ++ texts.map fun text => (segmentNumbers text).map exactNumber) ∧
    sums.Valid ∧ segments.length = texts.length ∧
    ∀ before numbers after,
      (texts.map fun text => (segmentNumbers text).map exactNumber) = before ++ numbers :: after →
      ∃ s, segments[before.length]? = some s ∧
        s.AddsUp (onLine ++ before ++ [numbers]) (all ++ before ++ [numbers]) numbers := by
  induction texts generalizing onLine all segments sums with
  | nil =>
    cases h
    refine ⟨by simp, valid, rfl, fun before numbers after e => ?_⟩
    simp at e
  | cons text texts ih =>
    obtain ⟨first, more⟩ := List.forall_mem_cons.mp small
    rw [readSegments] at h
    obtain ⟨⟨generated, next, s⟩, one, h⟩ := Except.bind_eq_ok.mp h
    obtain ⟨⟨rest, behind⟩, later, h⟩ := Except.bind_eq_ok.mp h
    cases h
    obtain ⟨numbers, exact, -⟩ := Except.bind_eq_ok.mp one
    have tiny : ∀ n ∈ numbers, n.natAbs < 2 ^ 62 := by
      rw [numbers_of_small exact first]
      intro n hn
      obtain ⟨digits, hd, rfl⟩ := List.mem_map.mp hn
      exact natAbs_exactNumber_lt (first digits hd)
    obtain ⟨rfl, rfl, word', valid', here⟩ := addsUp_of_readSegment valid word exact tiny one
    obtain ⟨rfl, valid'', length, each⟩ := ih valid' word' more later
    rw [List.map_cons, ← numbers_of_small exact first]
    refine ⟨by simp, valid'', by simp [length], fun before numbers' after e => ?_⟩
    cases before with
    | nil =>
      obtain ⟨rfl, -⟩ := List.cons.inj e
      exact ⟨s, rfl, by simpa using here⟩
    | cons _ before =>
      obtain ⟨rfl, tail⟩ := List.cons.inj e
      obtain ⟨t, found, there⟩ := each before numbers' after tail
      exact ⟨t, by simpa using found, by simpa using there⟩

theorem summed_of_readLines {earlier : List (List Int)} {index : Nat} {texts : List (List Char)}
    {lines : Lines} (valid : (sumsOf earlier).Valid)
    (small : ∀ line ∈ texts, ∀ text ∈ segmentTexts line, ∀ digits ∈ segmentNumbers text,
      magnitude digits < 2 ^ 63)
    (h : readLines index (sumsOf earlier) texts = .ok lines) :
    ∃ read, Summed earlier (texts.map fun line => (segmentTexts line).map fun text =>
      (segmentNumbers text).map exactNumber) read ∧ List.Forall₂ StablySorted read lines := by
  induction texts generalizing earlier index lines with
  | nil =>
    cases h
    exact ⟨[], ⟨.nil, fun front line back e => by simp at e⟩, .nil⟩
  | cons line texts ih =>
    obtain ⟨first, more⟩ := List.forall_mem_cons.mp small
    rw [readLines] at h
    split at h
    · cases h
    · rename_i segments sums one
      obtain ⟨rest, later, rfl⟩ := Except.map_eq_ok.mp h
      have zero : IsWord (total 0 []) := ⟨by decide, by decide⟩
      obtain ⟨rfl, valid', length, each⟩ := addsUp_of_readSegments valid zero first one
      obtain ⟨read, summed, sorted⟩ := ih valid' more later
      refine ⟨segments :: read, ⟨.cons (by simp [length]) summed.shape, ?_⟩,
        .cons (stablySorted_mergeSort segments) sorted⟩
      intro front line' back e before numbers after e'
      cases front with
      | nil =>
        obtain ⟨rfl, -⟩ := List.cons.inj e
        obtain ⟨s, found, here⟩ := each before numbers after e'
        exact ⟨segments, s, rfl, found, by simpa using here⟩
      | cons _ front =>
        obtain ⟨rfl, tail⟩ := List.cons.inj e
        obtain ⟨segments', s, found, found', there⟩ :=
          summed.each front line' back tail before numbers after e'
        exact ⟨segments', s, by simpa using found, found', by simpa using there⟩

/-! ## Sums that stay words -/

theorem isWord_zero : IsWord 0 := ⟨by decide, by decide⟩

/-- The sums that a segment tells are words. -/
theorem Segment.AddsUp.isWord_total {s : Segment} {onLine all : List (List Int)} {numbers : List Int}
    (h : s.AddsUp onLine all numbers) {place : Nat} (behind : 0 < place)
    (inside : place < numbers.length) : IsWord (total place all) := by
  rcases h.shape with ⟨one, -⟩ | ⟨o, origin, four | ⟨five, n, -, name⟩⟩
  · omega
  · obtain ⟨source, line, column⟩ := h.origin o origin
    obtain rfl | rfl | rfl : place = 1 ∨ place = 2 ∨ place = 3 := by omega
    · exact source ▸ isWord_toNat _
    · exact line ▸ isWord_toNat _
    · exact column ▸ isWord_toNat _
  · obtain ⟨source, line, column⟩ := h.origin o origin
    obtain rfl | rfl | rfl | rfl : place = 1 ∨ place = 2 ∨ place = 3 ∨ place = 4 := by omega
    · exact source ▸ isWord_toNat _
    · exact line ▸ isWord_toNat _
    · exact column ▸ isWord_toNat _
    · exact name ▸ isWord_toNat _

namespace Summed
variable {numbers : List (List (List Int))} {read : Lines}

/-- So are those in front of it, as a segment without a number at some place leaves the sum there. -/
theorem isWord_total (h : Summed [] numbers read) {place : Nat} (behind : 0 < place)
    {front back : List (List (List Int))} {line before after : List (List Int)}
    (e : numbers = front ++ line :: back) (e' : line = before ++ after)
    (start : IsWord (total place front.flatten)) : IsWord (total place (front.flatten ++ before)) := by
  induction before using List.reverseRecOn generalizing after with
  | nil => simpa using start
  | append_singleton before segment ih =>
    rw [List.append_assoc] at e'
    have earlier := ih e'
    rw [← List.append_assoc]
    by_cases inside : place < segment.length
    · obtain ⟨_, s, -, -, here⟩ := h.each front line back e before segment after e'
      exact here.isWord_total behind inside
    · rw [total_snoc, List.getElem?_eq_none (by omega)]
      simpa using earlier

theorem isWord_total_flatten (h : Summed [] numbers read) {place : Nat} (behind : 0 < place)
    {front back : List (List (List Int))} (e : numbers = front ++ back) :
    IsWord (total place front.flatten) := by
  induction front using List.reverseRecOn generalizing back with
  | nil => exact isWord_zero
  | append_singleton front line ih =>
    rw [List.append_assoc] at e
    have all := h.isWord_total behind e (List.append_nil line).symm (ih e)
    simpa using all

theorem isWord_total_zero (h : Summed [] numbers read) {front back : List (List (List Int))}
    {line before after : List (List Int)} (e : numbers = front ++ line :: back)
    (e' : line = before ++ after) : IsWord (total 0 before) := by
  rcases List.eq_nil_or_concat before with rfl | ⟨most, last, rfl⟩
  · exact isWord_zero
  · rw [List.concat_eq_append] at e' ⊢
    rw [List.append_assoc] at e'
    obtain ⟨_, s, -, -, here⟩ := h.each front line back e most last after e'
    exact here.column ▸ isWord_toNat _

/-- Sums that are words differ by less than a word. -/
theorem natAbs_lt (h : Summed [] numbers read) {line : List (List Int)} (hl : line ∈ numbers)
    {segment : List Int} (hs : segment ∈ line) {n : Int} (hn : n ∈ segment) : n.natAbs < 2 ^ 32 := by
  obtain ⟨front, back, e⟩ := List.append_of_mem hl
  obtain ⟨before, after, e'⟩ := List.append_of_mem hs
  obtain ⟨place, found⟩ := List.getElem?_of_mem hn
  obtain ⟨_, s, -, -, here⟩ := h.each front line back e before segment after e'
  have inside : place < segment.length := (List.getElem?_eq_some_iff.mp found).1
  have apart {z : Int} (word : IsWord z) (word' : IsWord (z + n)) : n.natAbs < 2 ^ 32 := by
    unfold IsWord at word word'
    omega
  cases place with
  | zero =>
    have onward := here.column ▸ isWord_toNat s.column
    rw [total_snoc, found] at onward
    exact apart (h.isWord_total_zero e e') onward
  | succ place =>
    have behind : 0 < place + 1 := by omega
    have onward := here.isWord_total behind inside
    rw [List.nil_append, total_snoc, found] at onward
    exact apart (h.isWord_total behind e e' (h.isWord_total_flatten behind e)) onward

end Summed

/-! ## Reading -/

/-- The digits of a mappings text, line by line, segment by segment and number by number. -/
def writtenDigits (text : String) : List (List (List (List Nat))) :=
  (split ';' text.toList).map fun line => (segmentTexts line).map segmentNumbers

/-- The numbers of a mappings text, over all integers. -/
def writtenNumbers (text : String) : List (List (List Int)) :=
  (writtenDigits text).map fun line => line.map fun segment => segment.map exactNumber

/-- What is read from a text adds up exactly if the digits of each number are worth less than 2⁶³.
Beyond that a word of 64 bits is full, and a number of thirteen digits is read as another one. -/
theorem decode_addUp_iff {text : String} {lines : Lines} (h : decode text = .ok lines) :
    AddUp (writtenNumbers text) lines ↔
      ∀ line ∈ writtenDigits text, ∀ segment ∈ line, ∀ digits ∈ segment, magnitude digits < 2 ^ 63 := by
  constructor
  · rintro ⟨read, summed, -⟩ line hl segment hs digits hd
    have small := summed.natAbs_lt (List.mem_map_of_mem hl) (List.mem_map_of_mem hs)
      (List.mem_map_of_mem hd)
    unfold exactNumber at small
    split at small <;> omega
  · intro small
    have none : sumsOf [] = Sums.zero := rfl
    unfold decode at h
    rw [← none] at h
    obtain ⟨read, summed, sorted⟩ := summed_of_readLines (none ▸ Sums.valid_zero)
      (fun line hl segment hs digits hd => small _ (List.mem_map_of_mem hl) _
        (List.mem_map_of_mem hs) digits hd) h
    refine ⟨read, ?_, sorted⟩
    simpa [writtenNumbers, writtenDigits, Function.comp_def] using summed

theorem decode_addUp_iff_padded :
    decode "ggggggggggggA;K+/////HCA;CDAEC" = .ok [[⟨0, none⟩],
      [⟨5, some ⟨4294967295, 1, 0, none⟩⟩], [⟨1, some ⟨4294967294, 1, 2, some 1⟩⟩]] ∧
    AddUp (writtenNumbers "ggggggggggggA;K+/////HCA;CDAEC") [[⟨0, none⟩],
      [⟨5, some ⟨4294967295, 1, 0, none⟩⟩], [⟨1, some ⟨4294967294, 1, 2, some 1⟩⟩]] := by
  have read : decode "ggggggggggggA;K+/////HCA;CDAEC" = .ok [[⟨0, none⟩],
      [⟨5, some ⟨4294967295, 1, 0, none⟩⟩], [⟨1, some ⟨4294967294, 1, 2, some 1⟩⟩]] :=
    Except.eq_ok_of_toOption (by decide +kernel)
  exact ⟨read, (decode_addUp_iff read).mpr (by decide +kernel)⟩

/-- Twelve digits of nothing and a thirteenth that stands for 2⁶⁴ are read as zero. -/
theorem number_lost_past_word : decode "ggggggggggggQ" = .ok [[⟨0, none⟩]] ∧
    writtenNumbers "ggggggggggggQ" = [[[2 ^ 63]]] ∧
    ¬ AddUp (writtenNumbers "ggggggggggggQ") [[⟨0, none⟩]] := by
  have written : writtenNumbers "ggggggggggggQ" = [[[2 ^ 63]]] := by decide +kernel
  refine ⟨Except.eq_ok_of_toOption (by decide +kernel), written, ?_⟩
  rw [written]
  rintro ⟨read, summed, -⟩
  have small := summed.natAbs_lt List.mem_cons_self List.mem_cons_self List.mem_cons_self
  revert small
  decide

end Apportion.PositionMap
