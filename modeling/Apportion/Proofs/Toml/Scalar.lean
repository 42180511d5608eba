import Apportion.Toml.Reader
import Mathlib.Data.List.TakeWhile

/-!
Scalars on one line. What ends a line, a comment or blanks in front of it included, goes on with no number,
date or string (`EndsValue`), so the readers of scalars answer on a line as they answer on the value
alone, and leave the end of the line behind it.
-/
namespace Apportion.Toml
open Text

/-! ## Ends of lines -/

/-- A text that starts with the end of a line: blanks, and then nothing, a comment or a line end. -/
def EndsValue (t : List Char) : Prop :=
  ∀ c ∈ (skipSpaces t).head?, c = '#' ∨ c = '\n' ∨ c = '\r'

/-- The characters that can stand first at the end of a line. -/
def isBreak (c : Char) : Bool := c == ' ' || c == '\t' || c == '#' || c == '\n' || c == '\r'

theorem isBreak_iff {c : Char} :
    isBreak c = true ↔ c = ' ' ∨ c = '\t' ∨ c = '#' ∨ c = '\n' ∨ c = '\r' := by
  simp [isBreak, or_assoc]

/-- What holds of five characters holds of all that can stand first at the end of a line. -/
theorem of_isBreak {p : Char → Bool} (all : [' ', '\t', '#', '\n', '\r'].all p = true) {c : Char}
    (h : isBreak c = true) : p c = true := by
  simp only [List.all_cons, List.all_nil, Bool.and_eq_true] at all
  rcases isBreak_iff.mp h with rfl | rfl | rfl | rfl | rfl
  all_goals simp [all]

theorem EndsValue.isBreak {t : List Char} (h : EndsValue t) : ∀ c ∈ t.head?, isBreak c = true := by
  intro c mem
  cases t with
  | nil => cases mem
  | cons d t =>
    obtain rfl := Option.some.inj mem
    rw [isBreak_iff]
    by_cases space : isSpace d = true
    · rw [isSpace, Bool.or_eq_true, beq_iff_eq, beq_iff_eq] at space
      rcases space with rfl | rfl <;> simp
    · have first : (skipSpaces (d :: t)).head? = some d := by simp [skipSpaces, space]
      rcases h d first with rfl | rfl | rfl <;> simp

theorem EndsValue.tail {c : Char} {t : List Char} (h : EndsValue (c :: t)) (space : isSpace c = true) :
    EndsValue t := by
  rwa [EndsValue, skipSpaces, List.dropWhile_cons_of_pos space] at h

section
variable {t : List Char}

/-- No class of characters goes on into a text that starts outside of it. -/
theorem takeWhile_append_of_head {p : Char → Bool} (out : ∀ c ∈ t.head?, p c = false) (s : List Char) :
    (s ++ t).takeWhile p = s.takeWhile p := by
  have none : t.takeWhile p = [] := by
    cases t with
    | nil => rfl
    | cons c t => rw [List.takeWhile_cons, out c rfl]; rfl
  rw [List.takeWhile_append]
  split
  · rename_i whole
    rw [none, List.append_nil]
    exact ((List.takeWhile_prefix p).eq_of_length whole).symm
  · rfl

theorem dropWhile_append_of_head {p : Char → Bool} (out : ∀ c ∈ t.head?, p c = false) (s : List Char) :
    (s ++ t).dropWhile p = s.dropWhile p ++ t := by
  have none : t.dropWhile p = t := by
    cases t with
    | nil => rfl
    | cons c t => rw [List.dropWhile_cons, out c rfl]; rfl
  rw [List.dropWhile_append]
  split
  · rename_i whole
    rw [none, List.isEmpty_iff.mp whole, List.nil_append]
  · rfl

theorem EndsValue.out (h : EndsValue t) {p : Char → Bool}
    (all : [' ', '\t', '#', '\n', '\r'].all (fun c => !p c) = true) : ∀ c ∈ t.head?, p c = false :=
  fun c mem => by simpa using of_isBreak (p := fun c => !p c) all (h.isBreak c mem)

theorem EndsValue.ne (h : EndsValue t) {d : Char} (other : Toml.isBreak d = false) :
    ∀ c ∈ t.head?, c ≠ d := by
  rintro c mem rfl
  rw [h.isBreak c mem] at other
  cases other

/-! ## Numbers -/

theorem scanRun_cons (p : Char → Bool) (c : Char) {rest : List Char}
    (other : ∀ d more, rest ≠ '_' :: d :: more) : scanRun p (c :: rest) =
      if p c then (c :: (scanRun p rest).1, (scanRun p rest).2) else ([], c :: rest) := by
  rw [scanRun]
  exact other

theorem scanRun_of_out {p : Char → Bool} (out : ∀ c ∈ t.head?, p c = false) : scanRun p t = ([], t) := by
  unfold scanRun
  split
  · rw [out _ rfl]
    rfl
  · rw [out _ rfl]
    rfl
  · rfl

theorem scanRun_append (ends : EndsValue t) {p : Char → Bool} (line : p '_' = false)
    (all : [' ', '\t', '#', '\n', '\r'].all (fun c => !p c) = true) (s : List Char) :
    scanRun p (s ++ t) = ((scanRun p s).1, (scanRun p s).2 ++ t) := by
  have out := ends.out all
  induction s using scanRun.induct p with
  | case1 c d rest hc hd _ _ _ ih =>
    rw [List.cons_append] at ih
    simp only [List.cons_append, scanRun, hc, hd, if_true, ih]
  | case2 c d rest hc hd => simp [scanRun, hc, hd]
  | case3 c d rest hc => simp [scanRun, hc]
  | case4 c rest other hc _ _ _ ih =>
    by_cases alone : rest = ['_']
    · -- an underscore at the very end is no part of the number, whatever comes next
      subst alone
      cases t with
      | nil => simp
      | cons d t => simp [scanRun, hc, line, out d rfl]
    · have other' : ∀ d more, rest ++ t ≠ '_' :: d :: more := by
        intro d more e
        match rest, other, alone with
        | [], _, _ => exact ends.ne (by decide) '_' (by rw [List.nil_append] at e; rw [e]; rfl) rfl
        | [x], _, alone => exact alone (by rw [(List.cons.inj e).1])
        | x :: y :: rest, other, _ =>
          obtain ⟨rfl, e⟩ := List.cons.inj e
          exact other y rest rfl
      rw [List.cons_append, scanRun_cons p c other', scanRun_cons p c fun d more e => other d more e,
        if_pos hc, if_pos hc, ih]
  | case5 c rest other hc =>
    rw [scanRun_cons p c fun d more e => other d more e, if_neg hc]
    exact scanRun_of_out (by simpa using hc)
  | case6 => exact scanRun_of_out out

theorem scanSign_of_ne {s : List Char} (minus : ∀ c ∈ s.head?, c ≠ '-') (plus : ∀ c ∈ s.head?, c ≠ '+') :
    scanSign s = (false, s) := by
  unfold scanSign
  split
  · exact absurd rfl (minus _ rfl)
  · exact absurd rfl (plus _ rfl)
  · rfl

theorem scanSign_append (ends : EndsValue t) (s : List Char) :
    scanSign (s ++ t) = ((scanSign s).1, (scanSign s).2 ++ t) := by
  cases s with
  | nil => exact scanSign_of_ne (ends.ne (by decide)) (ends.ne (by decide))
  | cons c s =>
    by_cases minus : c = '-'
    · subst minus
      rfl
    · by_cases plus : c = '+'
      · subst plus
        rfl
      · rw [List.cons_append, scanSign_of_ne (by simpa using minus) (by simpa using plus),
          scanSign_of_ne (by simpa using minus) (by simpa using plus), List.cons_append]

theorem scanDigits_append (ends : EndsValue t) (s : List Char) :
    scanRun Char.isDigit (s ++ t) =
      ((scanRun Char.isDigit s).1, (scanRun Char.isDigit s).2 ++ t) :=
  scanRun_append ends (by decide) (by decide) s

theorem scanDecimal_of_ne {s : List Char} (zero : ∀ c ∈ s.head?, c ≠ '0') : scanDecimal s =
    match scanRun Char.isDigit s with
    | ([], _) => none
    | digits => some digits := by
  unfold scanDecimal
  split
  · exact absurd rfl (zero _ rfl)
  · rfl

theorem scanDecimal_append (ends : EndsValue t) (s : List Char) :
    scanDecimal (s ++ t) = (scanDecimal s).map fun (digits, rest) => (digits, rest ++ t) := by
  by_cases zero : s.head? = some '0'
  · obtain ⟨s, rfl⟩ := List.head?_eq_some_iff.mp zero
    rfl
  · have here : ∀ c ∈ s.head?, c ≠ '0' := fun c mem e => zero (e ▸ mem)
    have there : ∀ c ∈ (s ++ t).head?, c ≠ '0' := by
      cases s with
      | nil => exact ends.ne (by decide)
      | cons c s => exact here
    rw [scanDecimal_of_ne here, scanDecimal_of_ne there, scanDigits_append ends]
    obtain ⟨digits, rest⟩ := scanRun Char.isDigit s
    cases digits <;> rfl

theorem scanExponent_of_ne {s : List Char} (small : ∀ c ∈ s.head?, c ≠ 'e')
    (large : ∀ c ∈ s.head?, c ≠ 'E') : scanExponent s = none := by
  unfold scanExponent
  split
  · exact absurd rfl (small _ rfl)
  · exact absurd rfl (large _ rfl)
  · rfl

theorem scanExponent_append (ends : EndsValue t) (s : List Char) :
    scanExponent (s ++ t) = (scanExponent s).map fun found => (found.1, found.2 ++ t) := by
  cases s with
  | nil => exact scanExponent_of_ne (ends.ne (by decide)) (ends.ne (by decide))
  | cons c s =>
    by_cases letter : c = 'e' ∨ c = 'E'
    · rcases letter with rfl | rfl
      all_goals
        simp only [List.cons_append, scanExponent, scanSign_append ends, scanDigits_append ends]
        obtain ⟨digits, rest⟩ := scanRun Char.isDigit (scanSign s).2
        cases digits <;> rfl
    · rw [not_or] at letter
      rw [List.cons_append, scanExponent_of_ne (by simpa using letter.1) (by simpa using letter.2),
        scanExponent_of_ne (by simpa using letter.1) (by simpa using letter.2)]
      rfl

theorem scanFraction_of_ne {s : List Char} (dot : ∀ c ∈ s.head?, c ≠ '.') : scanFraction s = none := by
  unfold scanFraction
  split
  · exact absurd rfl (dot _ rfl)
  · rfl

theorem scanFraction_append (ends : EndsValue t) (s : List Char) :
    scanFraction (s ++ t) = (scanFraction s).map fun (digits, rest) => (digits, rest ++ t) := by
  cases s with
  | nil => exact scanFraction_of_ne (ends.ne (by decide))
  | cons c s =>
    by_cases dot : c = '.'
    · subst dot
      rw [List.cons_append, scanFraction, scanFraction, scanDigits_append ends]
      obtain ⟨digits, rest⟩ := scanRun Char.isDigit s
      cases digits <;> rfl
    · rw [List.cons_append, scanFraction_of_ne (by simpa using dot),
        scanFraction_of_ne (by simpa using dot)]
      rfl

theorem skipDecimalFloat_append (ends : EndsValue t) (s : List Char) :
    skipDecimalFloat (s ++ t) = (skipDecimalFloat s).map (· ++ t) := by
  simp only [skipDecimalFloat, scanSign_append ends, scanDecimal_append ends]
  cases scanDecimal (scanSign s).2 with
  | none => rfl
  | some whole =>
    obtain ⟨whole, rest⟩ := whole
    simp only [Option.map_some, Option.bind_eq_bind, Option.bind_some, scanFraction_append ends,
      scanExponent_append ends]
    cases scanFraction rest with
    | none =>
      cases scanExponent rest with
      | none => rfl
      | some exponent =>
        simp only [Option.map_none, Option.map_some, Option.bind_some]
        split <;> rfl
    | some fraction =>
      obtain ⟨places, rest⟩ := fraction
      simp only [Option.map_some, scanExponent_append ends]
      cases scanExponent rest with
      | none =>
        simp only [Option.map_none]
        split <;> rfl
      | some exponent =>
        simp only [Option.map_some]
        split <;> rfl

/-- No word goes on into the end of a line. -/
theorem isPrefixOf_append (ends : EndsValue t) (word : List Char) (whole : word.any Toml.isBreak = false)
    (s : List Char) : word.isPrefixOf (s ++ t) = word.isPrefixOf s := by
  induction word generalizing s with
  | nil => simp
  | cons c word ih =>
    rw [List.any_cons, Bool.or_eq_false_iff] at whole
    cases s with
    | nil =>
      cases t with
      | nil => rfl
      | cons d t =>
        have other : (c == d) = false := beq_false_of_ne (ends.ne whole.1 d rfl).symm
        simp [List.isPrefixOf, other]
    | cons d s => rw [List.cons_append, List.isPrefixOf, List.isPrefixOf, ih whole.2]

theorem not_isPrefixOf {word s : List Char} (h : ∀ rest, s ≠ word ++ rest) : ¬ word.isPrefixOf s = true :=
  fun front => by
    obtain ⟨rest, e⟩ := List.isPrefixOf_iff_prefix.mp front
    exact h rest e.symm

theorem drop_append_of_isPrefixOf {word s : List Char} (h : word.isPrefixOf s = true) (t : List Char) :
    (s ++ t).drop word.length = s.drop word.length ++ t :=
  List.drop_append_of_le_length (List.isPrefixOf_iff_prefix.mp h).length_le

theorem skipFloat_eq (s : List Char) : skipFloat s =
    match skipDecimalFloat s with
    | some rest => some rest
    | none =>
      if ['i', 'n', 'f'].isPrefixOf (scanSign s).2 || ['n', 'a', 'n'].isPrefixOf (scanSign s).2 then
        some ((scanSign s).2.drop 3)
      else none := by
  unfold skipFloat
  cases skipDecimalFloat s with
  | some rest => rfl
  | none =>
    simp only
    split
    · rename_i rest e
      rw [e]
      rfl
    · rename_i rest e
      rw [e]
      rfl
    · rename_i inf nan
      rw [if_neg]
      rw [Bool.or_eq_true, not_or]
      exact ⟨not_isPrefixOf inf, not_isPrefixOf nan⟩

theorem skipFloat_append (ends : EndsValue t) (s : List Char) :
    skipFloat (s ++ t) = (skipFloat s).map (· ++ t) := by
  have first := isPrefixOf_append ends ['i', 'n', 'f'] (by decide) (scanSign s).2
  have second := isPrefixOf_append ends ['n', 'a', 'n'] (by decide) (scanSign s).2
  rw [skipFloat_eq, skipFloat_eq, skipDecimalFloat_append ends, scanSign_append ends]
  cases skipDecimalFloat s with
  | some rest => rfl
  | none =>
    simp only [Option.map_none, first, second]
    split
    · rename_i word
      rcases Bool.or_eq_true _ _ ▸ word with word | word
      all_goals exact congrArg some (drop_append_of_isPrefixOf word t)
    · rfl

theorem scanBased_append (ends : EndsValue t) (base : Nat) {p : Char → Bool} (line : p '_' = false)
    (all : [' ', '\t', '#', '\n', '\r'].all (fun c => !p c) = true) (s : List Char) :
    scanBased base p (s ++ t) = (scanBased base p s).map fun found => (found.1, found.2 ++ t) := by
  rw [scanBased, scanBased, scanRun_append ends line all]
  obtain ⟨digits, rest⟩ := scanRun p s
  cases digits <;> rfl

theorem scanBased_drop_append (ends : EndsValue t) {word s : List Char} (front : word.isPrefixOf s = true)
    (base : Nat) {p : Char → Bool} (line : p '_' = false)
    (all : [' ', '\t', '#', '\n', '\r'].all (fun c => !p c) = true) :
    scanBased base p ((s ++ t).drop word.length) =
      (scanBased base p (s.drop word.length)).map fun found => (found.1, found.2 ++ t) := by
  rw [drop_append_of_isPrefixOf front, scanBased_append ends base line all]

/-- An integer as it is written, before its bounds are looked at. -/
def scanUnbounded (s : List Char) : Option (Int × List Char) :=
  if ['0', 'x'].isPrefixOf s then scanBased 16 (fun c => (hexDigit? c).isSome) (s.drop 2)
  else if ['0', 'o'].isPrefixOf s then scanBased 8 (fun c => '0' ≤ c && c ≤ '7') (s.drop 2)
  else if ['0', 'b'].isPrefixOf s then scanBased 2 (fun c => c == '0' || c == '1') (s.drop 2)
  else
    (scanDecimal (scanSign s).2).map fun (digits, rest) =>
      (if (scanSign s).1 then -(digitsValue 10 digits : Int) else digitsValue 10 digits, rest)

theorem scanInteger_eq (s : List Char) : scanInteger s =
    (scanUnbounded s).filter fun (n, _) => -integerLimit ≤ n && n < integerLimit := by
  unfold scanInteger
  split
  · rfl
  · rfl
  · rfl
  · rename_i hex oct bin
    rw [scanUnbounded, if_neg (not_isPrefixOf hex), if_neg (not_isPrefixOf oct), if_neg (not_isPrefixOf bin)]

theorem scanUnbounded_append (ends : EndsValue t) (s : List Char) :
    scanUnbounded (s ++ t) = (scanUnbounded s).map fun found => (found.1, found.2 ++ t) := by
  simp only [scanUnbounded, isPrefixOf_append ends ['0', 'x'] (by decide),
    isPrefixOf_append ends ['0', 'o'] (by decide),
    isPrefixOf_append ends ['0', 'b'] (by decide)]
  split
  · rename_i word
    exact scanBased_drop_append ends word 16 (by decide) (by decide)
  · split
    · rename_i word
      exact scanBased_drop_append ends word 8 (by decide) (by decide)
    · split
      · rename_i word
        exact scanBased_drop_append ends word 2 (by decide) (by decide)
      · rw [scanSign_append ends, scanDecimal_append ends, Option.map_map, Option.map_map]
        rfl

theorem scanInteger_append (ends : EndsValue t) (s : List Char) :
    scanInteger (s ++ t) = (scanInteger s).map fun found => (found.1, found.2 ++ t) := by
  rw [scanInteger_eq, scanInteger_eq, scanUnbounded_append ends]
  cases scanUnbounded s with
  | none => rfl
  | some found =>
    simp only [Option.map_some, Option.filter_some]
    split <;> rfl

/-! ## Dates and times -/

theorem expect_append (ends : EndsValue t) {d : Char} (other : Toml.isBreak d = false) (s : List Char) :
    expect d (s ++ t) = (expect d s).map (· ++ t) := by
  cases s with
  | nil =>
    cases t with
    | nil => rfl
    | cons c t => exact if_neg (ends.ne other c rfl).symm
  | cons c s =>
    simp only [List.cons_append, expect]
    split <;> rfl

theorem scanFixed_append (ends : EndsValue t) (count low high : Nat) (s : List Char) :
    scanFixed count low high (s ++ t) =
      (scanFixed count low high s).map fun (n, rest) => (n, rest ++ t) := by
  by_cases long : count ≤ s.length
  · have here : (s ++ t).take count = s.take count := List.take_append_of_le_length long
    have rest : (s ++ t).drop count = s.drop count ++ t := List.drop_append_of_le_length long
    simp only [scanFixed, here, rest]
    split <;> rfl
  · -- the digits would reach into the end of the line
    have short : scanFixed count low high s = none := by
      rw [scanFixed, if_neg]
      rintro ⟨whole, -⟩
      rw [List.length_take] at whole
      omega
    rw [short, Option.map_none, scanFixed, if_neg]
    rintro ⟨whole, digits, -⟩
    cases t with
    | nil =>
      rw [List.append_nil, List.length_take] at whole
      omega
    | cons c t =>
      have mem : c ∈ (s ++ c :: t).take count := by
        rw [List.take_append, show count - s.length = count - s.length - 1 + 1 by omega, List.take_succ_cons]
        simp
      have no := ends.out (p := Char.isDigit) (by decide) c rfl
      rw [List.all_eq_true.mp digits c mem] at no
      cases no

theorem skipDate_append (ends : EndsValue t) (s : List Char) :
    skipDate (s ++ t) = (skipDate s).map (· ++ t) := by
  have dash := expect_append ends (d := '-') (by decide)
  simp only [skipDate, scanFixed_append ends, dash, Option.bind_eq_bind, Option.bind_map, Option.map_bind,
    Function.comp_def]
  rfl

theorem skipTime_append (ends : EndsValue t) (s : List Char) :
    skipTime (s ++ t) = (skipTime s).map (· ++ t) := by
  have colon := expect_append ends (d := ':') (by decide)
  have digit := ends.out (p := Char.isDigit) (by decide)
  simp only [skipTime, scanFixed_append ends, colon, Option.bind_eq_bind, Option.bind_map, Option.map_bind,
    Function.comp_def]
  refine Option.bind_congr fun _ _ => Option.bind_congr fun _ _ => Option.bind_congr fun _ _ =>
    Option.bind_congr fun _ _ => Option.bind_congr fun second _ => ?_
  -- what may come is the fraction of a second
  obtain ⟨_, rest⟩ := second
  simp only
  split
  · rename_i rest' e
    cases rest with
    | nil => exact absurd rfl (ends.ne (by decide) '.' (by rw [List.nil_append] at e; rw [e]; rfl))
    | cons c rest =>
      obtain ⟨rfl, whole⟩ := List.cons.inj e
      rw [← whole, List.append_eq, takeWhile_append_of_head digit, dropWhile_append_of_head digit]
      simp only
      split <;> rfl
  · rename_i other
    split
    · exact absurd rfl (other _)
    · rfl

theorem skipOffset_of_ne {s : List Char} (none : ∀ c ∈ s.head?, c ≠ 'Z' ∧ c ≠ 'z' ∧ c ≠ '+' ∧ c ≠ '-') :
    skipOffset s = .none := by
  unfold skipOffset
  split
  · exact absurd rfl (none _ rfl).1
  · exact absurd rfl (none _ rfl).2.1
  · exact absurd rfl (none _ rfl).2.2.1
  · exact absurd rfl (none _ rfl).2.2.2
  · rfl

theorem skipOffset_append (ends : EndsValue t) (s : List Char) :
    skipOffset (s ++ t) = (skipOffset s).map (· ++ t) := by
  have colon := expect_append ends (d := ':') (by decide)
  cases s with
  | nil =>
    exact skipOffset_of_ne fun c mem => ⟨ends.ne (by decide) c mem, ends.ne (by decide) c mem,
      ends.ne (by decide) c mem, ends.ne (by decide) c mem⟩
  | cons c s =>
    by_cases zone : c = 'Z' ∨ c = 'z'
    · rcases zone with rfl | rfl <;> rfl
    · by_cases sign : c = '+' ∨ c = '-'
      · rcases sign with rfl | rfl
        all_goals
          simp only [List.cons_append, skipOffset, scanFixed_append ends, colon, Option.bind_eq_bind,
            Option.bind_map, Option.map_bind, Function.comp_def]
          rfl
      · rw [not_or] at zone sign
        rw [List.cons_append, skipOffset_of_ne (by simpa using ⟨zone.1, zone.2, sign⟩),
          skipOffset_of_ne (by simpa using ⟨zone.1, zone.2, sign⟩)]
        rfl

/-- No time of day stands at the end of a line. -/
theorem skipTime_of_ends (ends : EndsValue t) : skipTime t = none := by
  have none := scanFixed_append ends 2 0 23 []
  rw [List.nil_append] at none
  simp only [skipTime, none]
  rfl

/-- What follows a time of day behind a date, if there is one. -/
def skipClock : List Char → List Char
  | [] => []
  | c :: time =>
    if c == 'T' || c == 't' || c == ' ' then
      match skipTime time with
      | some rest => (skipOffset rest).getD rest
      | none => c :: time
    else c :: time

theorem skipDateTime_eq (s : List Char) : skipDateTime s =
    match skipDate s with
    | none => skipTime s
    | some rest => some (skipClock rest) := by
  unfold skipDateTime
  cases skipDate s with
  | none => rfl
  | some rest =>
    cases rest with
    | nil => rfl
    | cons c time =>
      change _ = some (skipClock (c :: time))
      by_cases letter : c = 'T' ∨ c = 't' ∨ c = ' '
      · rcases letter with rfl | rfl | rfl
        all_goals
          rw [skipClock, if_pos (by decide)]
          simp only
          cases skipTime time <;> rfl
      · rw [skipClock, if_neg (by simpa [or_assoc] using letter)]
        simp only [not_or] at letter ⊢
        split
        · rename_i e
          exact absurd (List.cons.inj e).1 letter.1
        · rename_i e
          exact absurd (List.cons.inj e).1 letter.2.1
        · rename_i e
          exact absurd (List.cons.inj e).1 letter.2.2
        · rfl

theorem skipClock_append (ends : EndsValue t) (s : List Char) :
    skipClock (s ++ t) = skipClock s ++ t := by
  cases s with
  | nil =>
    cases t with
    | nil => rfl
    | cons c t =>
      change skipClock (c :: t) = c :: t
      rw [skipClock]
      split
      · rename_i letter
        rw [Bool.or_eq_true, Bool.or_eq_true, beq_iff_eq, beq_iff_eq, beq_iff_eq] at letter
        rcases letter with (rfl | rfl) | rfl
        · exact absurd rfl (ends.ne (by decide) 'T' rfl)
        · exact absurd rfl (ends.ne (by decide) 't' rfl)
        · rw [skipTime_of_ends (ends.tail rfl)]
      · rfl
  | cons c time =>
    rw [List.cons_append, skipClock, skipClock, skipTime_append ends]
    split
    · cases skipTime time with
      | none => rfl
      | some rest =>
        simp only [Option.map_some, skipOffset_append ends]
        cases skipOffset rest <;> rfl
    · rfl

theorem skipDateTime_append (ends : EndsValue t) (s : List Char) :
    skipDateTime (s ++ t) = (skipDateTime s).map (· ++ t) := by
  rw [skipDateTime_eq, skipDateTime_eq, skipDate_append ends]
  cases skipDate s with
  | none => exact skipTime_append ends s
  | some rest => exact congrArg some (skipClock_append ends rest)

/-! ## Numbers, dates and times -/

theorem textBefore_append (s rest : List Char) : textBefore (s ++ t) (rest ++ t) = textBefore s rest := by
  have count : (s ++ t).length - (rest ++ t).length = s.length - rest.length := by
    rw [List.length_append, List.length_append]
    omega
  rw [textBefore, textBefore, count, List.take_append_of_le_length (Nat.sub_le _ _)]

theorem scanPlain_append (ends : EndsValue t) (s : List Char) :
    scanPlain (s ++ t) = (scanPlain s).map fun (v, rest) => (v, rest ++ t) := by
  rw [scanPlain, scanPlain, skipDateTime_append ends, skipFloat_append ends, scanInteger_append ends]
  cases skipDateTime s with
  | some rest => simp only [Option.map_some, textBefore_append]
  | none =>
    cases skipFloat s with
    | some rest => simp only [Option.map_some, Option.map_none, textBefore_append]
    | none => simp only [Option.map_none, Option.map_map, Function.comp_def]

end
end Apportion.Toml
