import Apportion.PositionMap.Mappings
import Mathlib.Algebra.Group.Nat.Defs

/-!
Reading mappings back. A number that is written is read as it was (`numbers_writeNumber`), so that a
segment comes back if the sums before it do (`readSegment_writeSegment`), and all lines do, with the
segments of each in order (`decode_encode`).
-/
namespace Apportion.PositionMap
open Text

/-! ## Digits -/

theorem digitOf_letterOf {d : Nat} (h : d < 64) : digitOf (letterOf d) = some d := by
  have all : ∀ d : Fin 64, digitOf (letterOf d) = some d.val := by decide +kernel
  exact all ⟨d, h⟩

theorem letterOf_ne_separator {d : Nat} (h : d < 64) : letterOf d ≠ ',' ∧ letterOf d ≠ ';' := by
  have all : ∀ d : Fin 64, letterOf d ≠ ',' ∧ letterOf d ≠ ';' := by decide +kernel
  exact all ⟨d, h⟩

theorem digits_lt (n : Nat) : ∀ d ∈ digits n, d < 64 := by
  induction n using digits.induct with
  | case1 n small =>
    intro d hd
    rw [digits, if_pos small, List.mem_singleton] at hd
    omega
  | case2 n large ih =>
    intro d hd
    rw [digits, if_neg large] at hd
    rcases List.mem_cons.mp hd with rfl | hd
    · omega
    · exact ih d hd

theorem digits_ne_nil (n : Nat) : digits n ≠ [] := by
  rw [digits]
  split <;> simp

/-! ## Numbers -/

theorem wrap_eq_self {n : Int} (low : -0x8000000000000000 ≤ n) (high : n < 0x8000000000000000) :
    wrap n = n := by
  unfold wrap
  rw [Int.bmod_def]
  omega

/-- The digits of a number add it to what has been read of it before, as long as it stays well below
the end of the word. -/
theorem numbersFrom_digits {n shift value : Nat} (room : value + n * 2 ^ shift < 2 ^ 60)
    (place : shift ≤ 60) (rest : List Char) :
    numbersFrom value shift ((digits n).map letterOf ++ rest) =
      (numbersFrom 0 0 rest).map (signed (value + n * 2 ^ shift : Nat) :: ·) := by
  induction n using digits.induct generalizing value shift with
  | case1 n small =>
    have pos : 0 < 2 ^ shift := Nat.two_pow_pos shift
    have sum : wrap (value + addend n shift) = (value + n * 2 ^ shift : Nat) := by
      rw [addend, Nat.mod_eq_of_lt small, Nat.shiftLeft_eq, wrap_eq_self (n := (n * 2 ^ shift : Nat))]
      · rw [← Int.natCast_add, wrap_eq_self] <;> omega
      · omega
      · omega
    rw [digits, if_pos small, List.map_singleton, List.singleton_append, numbersFrom,
      digitOf_letterOf (by omega)]
    simp only [sum]
    rw [if_neg (by omega), if_neg (by omega)]
  | case2 n large ih =>
    have parts : n % 32 * 2 ^ shift + n / 32 * 2 ^ (shift + 5) = n * 2 ^ shift := by
      calc n % 32 * 2 ^ shift + n / 32 * 2 ^ (shift + 5)
          = n % 32 * 2 ^ shift + 32 * (n / 32) * 2 ^ shift := by
            rw [Nat.pow_add, Nat.mul_comm (2 ^ shift), ← Nat.mul_assoc, Nat.mul_comm (n / 32)]
        _ = n * 2 ^ shift := by rw [← Nat.add_mul, Nat.mod_add_div]
    have sum : wrap (value + addend (n % 32 + 32) shift) = (value + n % 32 * 2 ^ shift : Nat) := by
      have low : (n % 32 + 32) % 32 = n % 32 := by omega
      rw [addend, low, Nat.shiftLeft_eq, wrap_eq_self (n := (n % 32 * 2 ^ shift : Nat))]
      · rw [← Int.natCast_add, wrap_eq_self] <;> omega
      · omega
      · omega
    -- a digit that is not the last leaves room for the next one
    have next : shift + 5 ≤ 60 := by
      have one : 1 ≤ n / 32 := by omega
      have le : 2 ^ (shift + 5) ≤ n / 32 * 2 ^ (shift + 5) := Nat.le_mul_of_pos_left _ one
      exact Nat.le_of_lt ((Nat.pow_lt_pow_iff_right (by omega)).mp
        (show 2 ^ (shift + 5) < 2 ^ 60 by omega))
    rw [digits, if_neg large, List.map_cons, List.cons_append, numbersFrom,
      digitOf_letterOf (by omega)]
    simp only [sum]
    rw [if_neg (by omega), if_pos (by omega), ih (by omega) next, Nat.add_assoc, parts]

/-- A number whose sign and digits are in `n`, the sign in the lowest bit. -/
theorem signed_folded (z : Int) :
    signed ((if z < 0 then 2 * z.natAbs + 1 else 2 * z.natAbs : Nat) : Int) = z := by
  unfold signed
  split
  · split <;> omega
  · split <;> omega

/-- Numbers of less than 58 bits are read as they were written. -/
theorem numbers_writeNumber {z : Int} (small : z.natAbs < 2 ^ 58) (rest : List Char) :
    numbers (writeNumber z ++ rest) = (numbers rest).map (z :: ·) := by
  have room : 0 + (if z < 0 then 2 * z.natAbs + 1 else 2 * z.natAbs) * 2 ^ 0 < 2 ^ 60 := by
    split <;> omega
  have read := numbersFrom_digits room (by omega) rest
  rw [Nat.pow_zero, Nat.mul_one, Nat.zero_add, signed_folded] at read
  exact read

theorem numbers_flatMap {ns : List Int} (small : ∀ n ∈ ns, n.natAbs < 2 ^ 58) :
    numbers (ns.flatMap writeNumber) = .ok ns := by
  induction ns with
  | nil => rfl
  | cons n ns ih =>
    rw [List.flatMap_cons, numbers_writeNumber (small n List.mem_cons_self),
      ih fun m hm => small m (List.mem_cons_of_mem n hm)]
    rfl

/-! ## Segments -/

def IsWord (z : Int) : Prop := 0 ≤ z ∧ z < 0x100000000

theorem isWord_toNat (w : UInt32) : IsWord w.toNat := by
  have := w.toNat_lt
  exact ⟨by omega, by omega⟩

theorem inRange_toNat (quantity : Quantity) (w : UInt32) : inRange quantity w.toNat = .ok w := by
  have word := isWord_toNat w
  unfold inRange
  rw [if_pos ⟨word.1, word.2⟩, Int.toNat_natCast, UInt32.ofNat_toNat]

theorem wrap_add_sub (z : Int) (w : UInt32) : wrap (z + (w.toNat - z)) = w.toNat := by
  have word := isWord_toNat w
  unfold IsWord at word
  rw [show z + (w.toNat - z) = w.toNat by omega, wrap_eq_self (by omega) (by omega)]

structure Sums.Valid (s : Sums) : Prop where
  source : IsWord s.source
  line : IsWord s.line
  column : IsWord s.column
  name : IsWord s.name

theorem Sums.valid_zero : Sums.zero.Valid := by
  have zero : IsWord 0 := ⟨by omega, by omega⟩
  exact ⟨zero, zero, zero, zero⟩

def Segment.differences (generated : Int) (sums : Sums) (s : Segment) : List Int :=
  (s.column.toNat - generated) ::
  match s.origin with
  | none => []
  | some o =>
    [o.source.toNat - sums.source, o.line.toNat - sums.line, o.column.toNat - sums.column] ++
    match o.name with
    | none => []
    | some n => [n.toNat - sums.name]

theorem writeSegment_eq (generated : Int) (sums : Sums) (s : Segment) :
    writeSegment generated sums s = (s.differences generated sums).flatMap writeNumber := by
  obtain ⟨column, _ | ⟨source, line, column', _ | name⟩⟩ := s <;>
    simp [writeSegment, Segment.differences]

theorem Segment.differences_small {generated : Int} {sums : Sums} (word : IsWord generated)
    (h : sums.Valid) (s : Segment) : ∀ n ∈ s.differences generated sums, n.natAbs < 2 ^ 58 := by
  have small {z : Int} (hz : IsWord z) (w : UInt32) : ((w.toNat : Int) - z).natAbs < 2 ^ 58 := by
    have word := isWord_toNat w
    unfold IsWord at hz word
    omega
  obtain ⟨column, _ | ⟨source, line, column', _ | name⟩⟩ := s <;>
    simp only [Segment.differences, List.cons_append, List.nil_append, List.forall_mem_cons]
  · exact ⟨small word _, nofun⟩
  · exact ⟨small word _, small h.source _, small h.line _, small h.column _, nofun⟩
  · exact ⟨small word _, small h.source _, small h.line _, small h.column _, small h.name _, nofun⟩

theorem Segment.valid_sums {sums : Sums} (h : sums.Valid) (s : Segment) : (s.sums sums).Valid := by
  obtain ⟨column, _ | ⟨source, line, column', _ | name⟩⟩ := s
  · exact h
  · exact ⟨isWord_toNat _, isWord_toNat _, isWord_toNat _, h.name⟩
  · exact ⟨isWord_toNat _, isWord_toNat _, isWord_toNat _, isWord_toNat _⟩

theorem readSegment_writeSegment {generated : Int} {sums : Sums} (word : IsWord generated)
    (h : sums.Valid) (s : Segment) :
    readSegment generated sums (writeSegment generated sums s) =
      .ok ((s.column.toNat : Int), s.sums sums, s) := by
  have fields := numbers_flatMap (s.differences_small word h)
  rw [← writeSegment_eq] at fields
  unfold readSegment
  rw [fields]
  obtain ⟨column, _ | ⟨source, line, column', _ | name⟩⟩ := s <;>
    simp only [Segment.differences, List.cons_append, List.nil_append, Sums.origin, Segment.sums,
      Origin.sums, bind, Except.bind, pure, Except.pure, Except.map, wrap_add_sub, inRange_toNat]
  · rfl
  · rfl

theorem writeSegment_ne_nil (generated : Int) (sums : Sums) (s : Segment) :
    writeSegment generated sums s ≠ [] := by
  rw [writeSegment_eq, Segment.differences, List.flatMap_cons]
  simp [writeNumber, digits_ne_nil]

theorem separator_not_mem_writeSegment (generated : Int) (sums : Sums) (s : Segment) :
    ',' ∉ writeSegment generated sums s ∧ ';' ∉ writeSegment generated sums s := by
  have letters : ∀ c ∈ writeSegment generated sums s, c ≠ ',' ∧ c ≠ ';' := by
    intro c hc
    rw [writeSegment_eq] at hc
    obtain ⟨n, -, hc⟩ := List.mem_flatMap.mp hc
    obtain ⟨d, hd, rfl⟩ := List.mem_map.mp hc
    exact letterOf_ne_separator (digits_lt _ d hd)
  exact ⟨fun h => (letters _ h).1 rfl, fun h => (letters _ h).2 rfl⟩

/-! ## Lines -/

theorem mem_writeSegments {generated : Int} {sums : Sums} {segments : List Segment}
    {text : List Char} (h : text ∈ (writeSegments generated sums segments).1) :
    text ≠ [] ∧ ',' ∉ text ∧ ';' ∉ text := by
  induction segments generalizing generated sums with
  | nil => cases h
  | cons s rest ih =>
    rcases List.mem_cons.mp h with rfl | h
    · exact ⟨writeSegment_ne_nil _ _ s, separator_not_mem_writeSegment _ _ s⟩
    · exact ih h

theorem readSegments_writeSegments {generated : Int} {sums : Sums} (word : IsWord generated)
    (h : sums.Valid) (segments : List Segment) :
    readSegments generated sums (writeSegments generated sums segments).1 =
      .ok (segments, (writeSegments generated sums segments).2) ∧
    (writeSegments generated sums segments).2.Valid := by
  induction segments generalizing generated sums with
  | nil => exact ⟨rfl, h⟩
  | cons s rest ih =>
    obtain ⟨read, valid⟩ := ih (isWord_toNat s.column) (s.valid_sums h)
    refine ⟨?_, valid⟩
    simp only [writeSegments, readSegments, readSegment_writeSegment word h, read, bind,
      Except.bind, pure, Except.pure]

theorem segmentTexts_join {texts : List (List Char)} (h : ∀ text ∈ texts, text ≠ [] ∧ ',' ∉ text) :
    segmentTexts (join [','] texts) = texts := by
  by_cases empty : texts = []
  · rw [empty]
    rfl
  · rw [segmentTexts, split_join empty fun text ht => (h text ht).2]
    exact List.filter_eq_self.mpr fun text ht => by simpa using (h text ht).1

theorem semicolon_not_mem_join {texts : List (List Char)} (h : ∀ text ∈ texts, ';' ∉ text) :
    ';' ∉ join [','] texts := by
  induction texts with
  | nil => simp [join]
  | cons text rest ih =>
    by_cases empty : rest = []
    · simpa [empty, join] using h
    · rw [join_cons empty]
      simp only [List.mem_append, List.mem_singleton, not_or]
      exact ⟨⟨h text List.mem_cons_self, by decide⟩,
        ih fun t ht => h t (List.mem_cons_of_mem text ht)⟩

theorem semicolon_not_mem_writeLines (sums : Sums) (lines : Lines) :
    ∀ line ∈ writeLines sums lines, ';' ∉ line := by
  induction lines generalizing sums with
  | nil => simp [writeLines]
  | cons segments lines ih =>
    intro line hl
    rcases List.mem_cons.mp hl with rfl | hl
    · exact semicolon_not_mem_join fun text ht => (mem_writeSegments ht).2.2
    · exact ih _ line hl

theorem readLines_writeLines {sums : Sums} (h : sums.Valid) (index : Nat) (lines : Lines) :
    readLines index sums (writeLines sums lines) =
      .ok (lines.map fun segments => segments.mergeSort Segment.notAfter) := by
  induction lines generalizing sums index with
  | nil => rfl
  | cons segments lines ih =>
    have zero : IsWord 0 := ⟨by omega, by omega⟩
    obtain ⟨read, valid⟩ := readSegments_writeSegments zero h segments
    have texts : segmentTexts (join [','] (writeSegments 0 sums segments).1) =
        (writeSegments 0 sums segments).1 := segmentTexts_join fun text ht =>
      ⟨(mem_writeSegments ht).1, (mem_writeSegments ht).2.1⟩
    simp only [writeLines, readLines, texts, read, ih valid, Except.map, List.map_cons]

theorem writeLines_ne_nil {lines : Lines} (h : lines ≠ []) (sums : Sums) :
    writeLines sums lines ≠ [] := by
  cases lines with
  | nil => exact absurd rfl h
  | cons segments lines => simp [writeLines]

theorem decode_encode {lines : Lines} (h : lines ≠ []) : decode (encode lines) =
    .ok (lines.map fun segments => segments.mergeSort Segment.notAfter) := by
  rw [decode, encode, String.toList_ofList, split_join (writeLines_ne_nil h _)
    (semicolon_not_mem_writeLines _ _)]
  exact readLines_writeLines Sums.valid_zero 0 lines

end Apportion.PositionMap
