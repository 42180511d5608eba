import Apportion.Json.Reader
import Apportion.Json.Printer

/-!
Reading what is printed without blanks. A string comes back by its characters (`scanText_quote`), a
natural number by its digits (`scanNumber_toDigits`), and so does every value whose strings are texts and
whose numbers are natural (`read_compact`).
-/
namespace Apportion.Json
open Text

/-! ## Strings -/

theorem hexDigit?_hexDigit {n : Nat} (h : n < 16) : hexDigit? (hexDigit n) = some n := by
  have all : ∀ n : Fin 16, hexDigit? (hexDigit n) = some n.val := by decide
  exact all ⟨n, h⟩

/-- A character is printed with a letter for it behind a backslash, by its number, or as it is. -/
theorem escapeChar_cases (c : Char) :
    (∃ letter, letter ≠ 'u' ∧ escapeValue letter = some c ∧ escapeChar c = ['\\', letter]) ∨
    (c.toNat < 0x20 ∧ escapeChar c =
      ['\\', 'u', '0', '0', hexDigit (c.toNat / 16), hexDigit (c.toNat % 16)]) ∨
    (0x20 ≤ c.toNat ∧ c ≠ '"' ∧ c ≠ '\\' ∧ escapeChar c = [c]) := by
  unfold escapeChar
  split
  case h_8 noQuote noBackslash _ _ _ _ _ =>
    split
    · rename_i low
      exact .inr (.inl ⟨low, rfl⟩)
    · rename_i high
      exact .inr (.inr ⟨by omega, noQuote, noBackslash, rfl⟩)
  all_goals exact .inl ⟨_, by decide, rfl, rfl⟩

/-- A code unit that is no surrogate stands for its character. -/
theorem assemble_unit {c : Char} (low : c.toNat < 0x20) (pieces : List Piece) :
    assemble (.unit c.toNat :: pieces) = (assemble pieces).map (c :: ·) := by
  have leading : isLeading c.toNat = false := by
    simp only [isLeading, Bool.and_eq_false_iff, decide_eq_false_iff_not]
    omega
  have trailing : isTrailing c.toNat = false := by
    simp only [isTrailing, Bool.and_eq_false_iff, decide_eq_false_iff_not]
    omega
  cases pieces with
  | nil => simp [assemble, leading, trailing]
  | cons piece pieces => cases piece <;> simp [assemble, leading, trailing]

/-- A printed character is read as one piece, which stands for the character. -/
theorem exists_piece (c : Char) : ∃ piece,
    (∀ s, scanString (escapeChar c ++ s) =
      (scanString s).map fun (pieces, rest) => (piece :: pieces, rest)) ∧
    ∀ pieces, assemble (piece :: pieces) = (assemble pieces).map (c :: ·) := by
  rcases escapeChar_cases c with ⟨letter, noUnit, value, e⟩ | ⟨low, e⟩ | ⟨high, noQuote, noBackslash, e⟩
  · refine ⟨.char c, fun s => ?_, fun pieces => rfl⟩
    rw [e, List.cons_append, List.singleton_append, scanString, value]
    · cases scanString s <;> rfl
    · intro _ _ _ _ _ unit
      exact absurd unit noUnit
  · refine ⟨.unit c.toNat, fun s => ?_, assemble_unit low⟩
    have unit : hexUnit '0' '0' (hexDigit (c.toNat / 16)) (hexDigit (c.toNat % 16)) =
        some c.toNat := by
      simp only [hexUnit, hexDigit?_hexDigit (show c.toNat / 16 < 16 by omega),
        hexDigit?_hexDigit (Nat.mod_lt c.toNat (show 0 < 16 by omega))]
      simp [hexDigit?]
      omega
    simp only [e, List.cons_append, List.nil_append, scanString, unit]
    cases scanString s <;> rfl
  · refine ⟨.char c, fun s => ?_, fun pieces => rfl⟩
    rw [e, List.singleton_append, scanString]
    · rw [if_neg (by omega)]
      cases scanString s <;> rfl
    · exact noQuote
    · exact fun _ _ _ _ _ backslash => absurd backslash noBackslash
    · exact fun _ _ backslash => absurd backslash noBackslash

theorem scanText_quote (s rest : List Char) :
    scanText (s.flatMap escapeChar ++ '"' :: rest) = some (some (String.ofList s), rest) := by
  have whole : ∃ pieces, scanString (s.flatMap escapeChar ++ '"' :: rest) = some (pieces, rest) ∧
      assemble pieces = some s := by
    induction s with
    | nil => exact ⟨[], rfl, rfl⟩
    | cons c s ih =>
      obtain ⟨pieces, read, text⟩ := ih
      obtain ⟨piece, one, stands⟩ := exists_piece c
      refine ⟨piece :: pieces, ?_, ?_⟩
      · rw [List.flatMap_cons, List.append_assoc, one, read]
        rfl
      · rw [stands, text]
        rfl
  obtain ⟨pieces, read, text⟩ := whole
  simp only [scanText, read, Option.map_some, text]

/-! ## Numbers -/

/-- A text that cannot go on with a number in front of it: it is at an end, or at the end of an item. -/
def EndsItem (rest : List Char) : Prop := ∀ c ∈ rest.head?, c = ',' ∨ c = ']' ∨ c = '\x7d'

theorem digitsValue_toDigits (n : Nat) : digitsValue 10 (Nat.toDigits 10 n) = n := by
  have same : ∀ (digits : List Char) (m : Nat), (∀ c ∈ digits, c.isDigit = true) →
      digits.foldl (fun n c => 10 * n + (hexDigit? c).getD 0) m = Nat.ofDigitChars 10 digits m := by
    intro digits
    induction digits with
    | nil => intro m _; rfl
    | cons c digits ih =>
      intro m h
      simp only [List.forall_mem_cons] at h
      rw [List.foldl_cons, ih _ h.2, Nat.ofDigitChars_cons]
      simp [hexDigit?, h.1]
  rw [digitsValue, same _ 0 fun c hc => Nat.isDigit_of_mem_toDigits (by decide) (by decide) hc]
  exact Nat.ofDigitChars_toDigits (by decide) (by decide)

theorem eq_zero_of_toDigits {n : Nat} {digits : List Char} (h : Nat.toDigits 10 n = '0' :: digits) :
    n = 0 := by
  induction n using Nat.strongRecOn generalizing digits with
  | ind n ih =>
    by_cases small : n < 10
    · have all : ∀ m : Fin 10, m.val.digitChar = '0' → m.val = 0 := by decide
      rw [Nat.toDigits_of_lt_base small] at h
      exact all ⟨n, small⟩ (List.cons.inj h).1
    · rw [Nat.toDigits_of_base_le (by decide) (by omega)] at h
      cases front : Nat.toDigits 10 (n / 10) with
      | nil => exact absurd front Nat.toDigits_ne_nil
      | cons c more =>
        rw [front, List.cons_append] at h
        obtain ⟨rfl, -⟩ := List.cons.inj h
        have := ih (n / 10) (by omega) front
        omega

section
variable {rest : List Char}

theorem isDigit_of_toDigits {n : Nat} {c : Char} {t : List Char}
    (h : Nat.toDigits 10 n ++ rest = c :: t) : c.isDigit = true := by
  cases front : Nat.toDigits 10 n with
  | nil => exact absurd front Nat.toDigits_ne_nil
  | cons d digits =>
    have mem : d ∈ Nat.toDigits 10 n := by simp [front]
    rw [front, List.cons_append] at h
    rw [← (List.cons.inj h).1]
    exact Nat.isDigit_of_mem_toDigits (by decide) (by decide) mem

theorem EndsItem.not_isDigit (h : EndsItem rest) : ∀ c ∈ rest.head?, c.isDigit = false := by
  intro c hc
  rcases h c hc with rfl | rfl | rfl <;> rfl

theorem EndsItem.cases (h : EndsItem rest) :
    rest = [] ∨ ∃ t, rest = ',' :: t ∨ rest = ']' :: t ∨ rest = '\x7d' :: t := by
  cases rest with
  | nil => exact .inl rfl
  | cons c t =>
    rcases h c rfl with rfl | rfl | rfl
    · exact .inr ⟨t, .inl rfl⟩
    · exact .inr ⟨t, .inr (.inl rfl)⟩
    · exact .inr ⟨t, .inr (.inr rfl)⟩

theorem scanDigits_append {digits : List Char} (all : ∀ c ∈ digits, c.isDigit = true)
    (ends : ∀ c ∈ rest.head?, c.isDigit = false) : scanDigits (digits ++ rest) = (digits, rest) := by
  have stop : rest.takeWhile Char.isDigit = [] ∧ rest.dropWhile Char.isDigit = rest := by
    cases rest with
    | nil => exact ⟨rfl, rfl⟩
    | cons c t => simp [ends c rfl]
  rw [scanDigits, List.takeWhile_append_of_pos all, List.dropWhile_append_of_pos all, stop.1, stop.2,
    List.append_nil]

theorem scanWhole_toDigits (n : Nat) (ends : EndsItem rest) :
    scanWhole (Nat.toDigits 10 n ++ rest) = some (Nat.toDigits 10 n, rest) := by
  have run : scanDigits (Nat.toDigits 10 n ++ rest) = (Nat.toDigits 10 n, rest) :=
    scanDigits_append (fun c hc => Nat.isDigit_of_mem_toDigits (by decide) (by decide) hc)
      ends.not_isDigit
  unfold scanWhole
  split
  · rename_i t zero
    cases front : Nat.toDigits 10 n with
    | nil => exact absurd front Nat.toDigits_ne_nil
    | cons c digits =>
      rw [front, List.cons_append] at zero
      obtain ⟨rfl, rfl⟩ := List.cons.inj zero
      rw [eq_zero_of_toDigits front, Nat.toDigits_zero] at front
      obtain ⟨-, rfl⟩ := List.cons.inj front
      rfl
  · rw [run]
    split
    · rename_i none
      exact absurd (Prod.mk.inj none).1 Nat.toDigits_ne_nil
    · rfl

/-- A number that is printed by its digits is read as it was. -/
theorem scanNumber_toDigits (n : Nat) (ends : EndsItem rest) :
    scanNumber (Nat.toDigits 10 n ++ rest) = some (Numeral.ofNat n, rest) := by
  have fraction : scanFraction rest = some (none, rest) := by
    rcases ends.cases with rfl | ⟨t, rfl | rfl | rfl⟩ <;> rfl
  have exponent : scanExponent rest = some (none, rest) := by
    rcases ends.cases with rfl | ⟨t, rfl | rfl | rfl⟩ <;> rfl
  unfold scanNumber
  split
  rename_i negative t sign
  split at sign
  · rename_i minus
    exact absurd (isDigit_of_toDigits minus) (by decide)
  · obtain ⟨rfl, rfl⟩ := Prod.mk.inj sign
    simp only [scanWhole_toDigits n ends, fraction, exponent, bind, Option.bind]
    simp [digitsValue_toDigits, Numeral.ofNat]

end

/-! ## Values -/

/-- A value that its text tells in full: strings are texts, and numbers are natural. -/
inductive Exact : Json → Prop
  | null : Exact .null
  | bool (b : Bool) : Exact (.bool b)
  | number (n : Nat) : Exact (ofNat n)
  | string (s : String) : Exact (ofString s)
  | array {items : List Json} (each : ∀ j ∈ items, Exact j) : Exact (.array items)
  | object {fields : List (String × Json)} (each : ∀ f ∈ fields, Exact f.2) : Exact (ofFields fields)

theorem skipBlanks_cons {c : Char} (visible : isBlank c = false) (s : List Char) :
    skipBlanks (c :: s) = c :: s := by
  simp [skipBlanks, visible]

/-- A printed value begins with neither a blank nor a closing bracket. -/
theorem Exact.head {j : Json} (h : Exact j) :
    ∃ c t, printCompact j = c :: t ∧ isBlank c = false ∧ c ≠ ']' := by
  cases h with
  | null => exact ⟨_, _, rfl, rfl, by decide⟩
  | bool b => cases b <;> exact ⟨_, _, rfl, rfl, by decide⟩
  | number n =>
    cases front : Nat.toDigits 10 n with
    | nil => exact absurd front Nat.toDigits_ne_nil
    | cons c t =>
      have digit : c.isDigit = true :=
        isDigit_of_toDigits ((List.append_nil (Nat.toDigits 10 n)).trans front)
      refine ⟨c, t, by simp [printCompact, ofNat, printNumeral, Numeral.ofNat, front], ?_, ?_⟩
      · simp only [isBlank, Bool.or_eq_false_iff, beq_eq_false_iff_ne]
        refine ⟨⟨⟨?_, ?_⟩, ?_⟩, ?_⟩ <;> rintro rfl <;> cases digit
      · rintro rfl
        cases digit
  | string s => exact ⟨_, _, rfl, rfl, by decide⟩
  | array each => exact ⟨_, _, rfl, rfl, by decide⟩
  | object each => exact ⟨_, _, rfl, rfl, by decide⟩

/-- A value that is read from its text, whatever ends it. The length of the text tells how many calls
are enough. -/
def Returns (j : Json) : Prop := ∀ (fuel : Nat) (rest : List Char),
  2 * (printCompact j).length ≤ fuel → EndsItem rest →
    scanValue fuel (printCompact j ++ rest) = some (j, rest)

theorem Exact.returns_of_succ {j : Json} (h : Exact j) (step : ∀ (fuel : Nat) (rest : List Char),
    2 * (printCompact j).length ≤ fuel + 1 → EndsItem rest →
      scanValue (fuel + 1) (printCompact j ++ rest) = some (j, rest)) : Returns j := by
  intro fuel rest enough ends
  obtain ⟨c, t, head, -⟩ := h.head
  cases fuel with
  | zero => simp [head] at enough
  | succ fuel => exact step fuel rest enough ends

theorem endsItem_cons {c : Char} (h : c = ',' ∨ c = ']' ∨ c = '\x7d') (t : List Char) :
    EndsItem (c :: t) := by
  rintro d ⟨⟩
  exact h

/-- Items come back from their texts up to the closing bracket. -/
theorem scanItems_printItems {item : Json} {items : List Json}
    (each : ∀ j ∈ item :: items, Returns j) {fuel : Nat} {rest : List Char}
    (enough : 2 * (printItems (item :: items)).length < fuel) :
    scanItems fuel (printItems (item :: items) ++ ']' :: rest) = some (item :: items, rest) := by
  have first := each item List.mem_cons_self
  induction items generalizing item fuel with
  | nil =>
    obtain ⟨fuel, rfl⟩ : ∃ f, fuel = f + 1 := ⟨fuel - 1, by omega⟩
    rw [printItems] at enough ⊢
    rw [scanItems, first _ _ (by omega) (endsItem_cons (.inr (.inl rfl)) rest)]
    simp only [skipBlanks_cons (show isBlank ']' = false from rfl)]
  | cons next items ih =>
    have parts : printItems (item :: next :: items) =
        printCompact item ++ ',' :: printItems (next :: items) := rfl
    rw [parts] at enough ⊢
    simp only [List.length_append, List.length_cons] at enough
    obtain ⟨fuel, rfl⟩ : ∃ f, fuel = f + 1 := ⟨fuel - 1, by omega⟩
    have rest' : 2 * (printItems (next :: items)).length < fuel := by omega
    have later := ih (fun j hj => each j (List.mem_cons_of_mem item hj)) rest' (each next (by simp))
    rw [List.append_assoc, List.cons_append, scanItems,
      first _ _ (by omega) (endsItem_cons (.inl rfl) _)]
    simp only [skipBlanks_cons (show isBlank ',' = false from rfl), later]
    rfl

/-- One field: its key and value come back, in front of the closing brace or of further fields. -/
theorem scanFields_cons {key : String} {value : Json} (h : Returns value) {fuel : Nat}
    (enough : 2 * (printCompact value).length ≤ fuel) (rest : List Char) :
    scanFields (fuel + 1) (printText (some key) ++ ':' :: printCompact value ++ '\x7d' :: rest) =
        some ([(some key, value)], rest) ∧
      scanFields (fuel + 1) (printText (some key) ++ ':' :: printCompact value ++ ',' :: rest) =
        (scanFields fuel rest).map fun later => ((some key, value) :: later.1, later.2) := by
  have text (tail : List Char) : printText (some key) ++ ':' :: printCompact value ++ tail =
      '"' :: (key.toList.flatMap escapeChar ++ '"' :: ':' :: (printCompact value ++ tail)) := by
    simp [printText, quote]
  have blanks := skipBlanks_cons (show isBlank '"' = false from rfl)
  have blanks' := skipBlanks_cons (show isBlank ':' = false from rfl)
  constructor
  · have back := h fuel _ enough (endsItem_cons (.inr (.inr rfl)) rest)
    rw [text, scanFields]
    simp only [blanks, scanText_quote, blanks', back, String.ofList_toList,
      skipBlanks_cons (show isBlank '\x7d' = false from rfl)]
  · have back := h fuel _ enough (endsItem_cons (.inl rfl) rest)
    rw [text, scanFields]
    simp only [blanks, scanText_quote, blanks', back, String.ofList_toList,
      skipBlanks_cons (show isBlank ',' = false from rfl)]

/-- Fields come back from their texts up to the closing brace. -/
theorem scanFields_printFields {field : String × Json} {fields : List (String × Json)}
    (each : ∀ f ∈ field :: fields, Returns f.2) {fuel : Nat} {rest : List Char}
    (enough : 2 * (printFields ((field :: fields).map fun f => (some f.1, f.2))).length < fuel) :
    scanFields fuel (printFields ((field :: fields).map fun f => (some f.1, f.2)) ++ '\x7d' :: rest) =
      some ((field :: fields).map fun f => (some f.1, f.2), rest) := by
  have first := each field List.mem_cons_self
  induction fields generalizing field fuel with
  | nil =>
    obtain ⟨fuel, rfl⟩ : ∃ f, fuel = f + 1 := ⟨fuel - 1, by omega⟩
    have parts : printFields ([field].map fun f => (some f.1, f.2)) =
        printText (some field.1) ++ ':' :: printCompact field.2 := rfl
    rw [parts] at enough ⊢
    simp only [List.length_append, List.length_cons] at enough
    exact (scanFields_cons first (by omega) rest).1
  | cons next fields ih =>
    have parts : printFields ((field :: next :: fields).map fun f => (some f.1, f.2)) =
        printText (some field.1) ++ ':' :: printCompact field.2 ++
          ',' :: printFields ((next :: fields).map fun f => (some f.1, f.2)) := rfl
    rw [parts] at enough ⊢
    simp only [List.length_append, List.length_cons] at enough
    obtain ⟨fuel, rfl⟩ : ∃ f, fuel = f + 1 := ⟨fuel - 1, by omega⟩
    have rest' : 2 * (printFields ((next :: fields).map fun f => (some f.1, f.2))).length < fuel := by
      omega
    have later := ih (fun f hf => each f (List.mem_cons_of_mem field hf)) rest' (each next (by simp))
    rw [List.append_assoc, List.cons_append, (scanFields_cons first (by omega) _).2, later]
    rfl

theorem returns_ofNat (n : Nat) : Returns (ofNat n) := by
  refine (Exact.number n).returns_of_succ fun fuel rest _ ends => ?_
  have text : printCompact (ofNat n) = Nat.toDigits 10 n := by
    simp [printCompact, ofNat, printNumeral, Numeral.ofNat]
  obtain ⟨c, t, head, visible, -⟩ := (Exact.number n).head
  have start : skipBlanks (Nat.toDigits 10 n ++ rest) = Nat.toDigits 10 n ++ rest := by
    rw [← text, head, List.cons_append, skipBlanks_cons visible]
  have digit {c : Char} {t : List Char} (h : Nat.toDigits 10 n ++ rest = c :: t) :
      c.isDigit = true := isDigit_of_toDigits h
  rw [text, scanValue, start]
  -- A digit begins none of the other values, so that only the last branch is left.
  split
  case h_7 => rw [scanNumber_toDigits n ends]; rfl
  all_goals exact absurd (digit ‹_›) (by decide)

theorem returns_ofString (s : String) : Returns (ofString s) := by
  refine (Exact.string s).returns_of_succ fun fuel rest _ _ => ?_
  have text : printCompact (ofString s) ++ rest =
      '"' :: (s.toList.flatMap escapeChar ++ '"' :: rest) := by
    simp [printCompact, ofString, printText, quote]
  rw [text, scanValue, skipBlanks_cons rfl]
  simp [scanText_quote, ofString]

theorem returns_array {items : List Json} (each : ∀ j ∈ items, Exact j)
    (back : ∀ j ∈ items, Returns j) : Returns (.array items) := by
  refine (Exact.array each).returns_of_succ fun fuel rest enough _ => ?_
  have text : printCompact (.array items) ++ rest = '[' :: (printItems items ++ ']' :: rest) := by
    simp [printCompact]
  simp only [printCompact, List.length_append, List.length_cons, List.length_nil] at enough
  rw [text, scanValue, skipBlanks_cons rfl]
  cases items with
  | nil => rfl
  | cons item items =>
    -- The first item begins with no closing bracket, so that the array is not taken to be empty.
    obtain ⟨c, t, head, visible, noBracket⟩ := (each item List.mem_cons_self).head
    obtain ⟨u, front⟩ : ∃ u, printItems (item :: items) ++ ']' :: rest = c :: u := by
      cases items <;> exact ⟨_, by simp only [printItems, head]; rfl⟩
    have start : skipBlanks (printItems (item :: items) ++ ']' :: rest) =
        printItems (item :: items) ++ ']' :: rest := by
      rw [front, skipBlanks_cons visible]
    simp only [start]
    split
    · rename_i bracket
      rw [front] at bracket
      exact absurd (List.cons.inj bracket).1 noBracket
    · rw [scanItems_printItems back (by omega)]
      rfl

theorem returns_ofFields {fields : List (String × Json)} (each : ∀ f ∈ fields, Exact f.2)
    (back : ∀ f ∈ fields, Returns f.2) : Returns (ofFields fields) := by
  refine (Exact.object each).returns_of_succ fun fuel rest enough _ => ?_
  have text : printCompact (ofFields fields) ++ rest =
      '\x7b' :: (printFields (fields.map fun f => (some f.1, f.2)) ++ '\x7d' :: rest) := by
    simp [printCompact, ofFields]
  have long : (printCompact (ofFields fields)).length =
      (printFields (fields.map fun f => (some f.1, f.2))).length + 2 := by
    simp [printCompact, ofFields]
  rw [text, scanValue, skipBlanks_cons rfl]
  cases fields with
  | nil => rfl
  | cons field fields =>
    obtain ⟨u, front⟩ : ∃ u, printFields ((field :: fields).map fun f => (some f.1, f.2)) ++
        '\x7d' :: rest = '"' :: u := by
      cases fields <;> exact ⟨_, by simp only [List.map_cons, printFields, printText, quote]; rfl⟩
    have start : skipBlanks (printFields ((field :: fields).map fun f => (some f.1, f.2)) ++
        '\x7d' :: rest) = printFields ((field :: fields).map fun f => (some f.1, f.2)) ++
        '\x7d' :: rest := by
      rw [front, skipBlanks_cons rfl]
    simp only [start]
    split
    · rename_i brace
      rw [front] at brace
      exact absurd (List.cons.inj brace).1 (by decide)
    · rw [scanFields_printFields back (by omega)]
      rfl

theorem Exact.returns {j : Json} (h : Exact j) : Returns j := by
  induction h with
  | null => exact Exact.null.returns_of_succ fun _ _ _ _ => rfl
  | bool b => exact (Exact.bool b).returns_of_succ fun _ _ _ _ => by cases b <;> rfl
  | number n => exact returns_ofNat n
  | string s => exact returns_ofString s
  | array each back => exact returns_array each back
  | object each back => exact returns_ofFields each back

theorem read_compact {j : Json} (h : Exact j) : read j.compact = some j := by
  have whole := h.returns (2 * (printCompact j).length + 2) [] (by omega) nofun
  rw [List.append_nil] at whole
  simp [read, compact, whole, skipBlanks]

end Apportion.Json
