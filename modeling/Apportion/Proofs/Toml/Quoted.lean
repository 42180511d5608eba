import Apportion.Proofs.Toml.Scalar

/-!
Strings in front of the end of a line. A string that a text closes is read as it is, whatever follows: no
escape, no line end and no run of quotes in it takes up what comes behind the text.
-/
namespace Apportion.Toml
open Text

section
variable {s t rest : List Char}

/-! ## Strings -/

theorem newline?_of_ne {c : Char} (feed : c ≠ '\n') (return' : c ≠ '\r') (s : List Char) :
    newline? (c :: s) = none := by
  unfold newline?
  split
  · rename_i e
    exact absurd (List.cons.inj e).1 feed
  · rename_i e
    exact absurd (List.cons.inj e).1 return'
  · rfl

/-- The text goes on: it is more than a carriage return, which may end a line with what comes next. -/
def GoesOn (s : List Char) : Prop := s ≠ [] ∧ s ≠ ['\r']

theorem goesOn_of_ne {c : Char} (return' : c ≠ '\r') (s : List Char) : GoesOn (c :: s) :=
  ⟨List.cons_ne_nil c s, fun e => return' (List.cons.inj e).1⟩

theorem goesOn_of_newline? (h : newline? s ≠ none) : GoesOn s :=
  ⟨fun e => h (e ▸ rfl), fun e => h (e ▸ rfl)⟩

/-- Whether a line ends here does not depend on what follows a text that goes on. -/
theorem newline?_append (h : GoesOn s) (t : List Char) :
    newline? (s ++ t) = (newline? s).map (· ++ t) := by
  match s, h with
  | [], h => exact absurd rfl h.1
  | [c], h =>
    by_cases feed : c = '\n'
    · subst feed
      rfl
    · have return' : c ≠ '\r' := fun e => h.2 (e ▸ rfl)
      rw [List.cons_append, newline?_of_ne feed return', newline?_of_ne feed return']
      rfl
  | c :: d :: more, _ =>
    by_cases feed : c = '\n'
    · subst feed
      rfl
    · by_cases both : c = '\r' ∧ d = '\n'
      · obtain ⟨rfl, rfl⟩ := both
        rfl
      · have none : ∀ u, newline? (c :: d :: u) = none := by
          intro u
          unfold newline?
          split
          · rename_i e
            exact absurd (List.cons.inj e).1 feed
          · rename_i e
            obtain ⟨return', e⟩ := List.cons.inj e
            exact absurd ⟨return', (List.cons.inj e).1⟩ both
          · rfl
        rw [List.cons_append, List.cons_append, none, none]
        rfl

theorem length_of_mapM {α β : Type} {f : α → Option β} {as : List α} {bs : List β}
    (h : as.mapM f = some bs) : bs.length = as.length := by
  induction as generalizing bs with
  | nil =>
    cases h
    rfl
  | cons a as ih =>
    simp only [List.mapM_cons, Option.bind_eq_bind, Option.bind_eq_some_iff, Option.pure_def,
      Option.some.injEq] at h
    obtain ⟨b, -, rest, found, rfl⟩ := h
    rw [List.length_cons, List.length_cons, ih found]

theorem scanCodePoint_append {count : Nat} {c : Char} (h : scanCodePoint count s = some (c, rest))
    (t : List Char) : scanCodePoint count (s ++ t) = some (c, rest ++ t) := by
  unfold scanCodePoint at h ⊢
  cases read : (s.take count).mapM hexDigit? with
  | none => simp [read] at h
  | some digits =>
    simp only [read, Option.bind_eq_bind, Option.bind_some, Option.bind_none] at h
    split at h
    · cases h
    · rename_i whole
      have long : count ≤ s.length := by
        rw [ne_eq, not_not, length_of_mapM read, List.length_take] at whole
        omega
      rw [List.take_append_of_le_length long, List.drop_append_of_le_length long, read]
      simp only [Option.bind_eq_bind, Option.bind_some, if_neg whole]
      split at h
      · rename_i valid
        rw [if_pos valid]
        cases h
        rfl
      · cases h

theorem scanEscape_append {c : Char} (h : scanEscape s = some (c, rest)) (t : List Char) :
    scanEscape (s ++ t) = some (c, rest ++ t) := by
  unfold scanEscape at h
  split at h
  case h_8 => exact scanCodePoint_append h t
  case h_9 => exact scanCodePoint_append h t
  case h_10 => cases h
  all_goals
    cases h
    rfl

/-- No white space follows the backslash of an escape. -/
theorem exists_of_scanEscape {c : Char} (h : scanEscape s = some (c, rest)) :
    ∃ d more, s = d :: more ∧ isSpace d = false ∧ d ≠ '\n' ∧ d ≠ '\r' := by
  unfold scanEscape at h
  split at h
  case h_10 => cases h
  all_goals exact ⟨_, _, rfl, by decide, by decide, by decide⟩

theorem scanBasic_quote (fuel : Nat) (s : List Char) : scanBasic fuel ('"' :: s) = some ([], s) := by
  cases fuel <;> rfl

theorem scanBasic_escape (fuel : Nat) (s : List Char) : scanBasic (fuel + 1) ('\\' :: s) =
    (scanEscape s).bind fun (c, rest) => (scanBasic fuel rest).bind fun (cs, rest) => some (c :: cs, rest) :=
  rfl

theorem scanBasic_plain {c : Char} (quote : c ≠ '"') (backslash : c ≠ '\\') (fuel : Nat) (s : List Char) :
    scanBasic (fuel + 1) (c :: s) =
      if isPrintable c then (scanBasic fuel s).bind fun (cs, rest) => some (c :: cs, rest) else none := by
  rw [scanBasic]
  · cases isPrintable c <;> rfl
  · exact quote
  · exact backslash

theorem scanBasic_zero {c : Char} (quote : c ≠ '"') (s : List Char) : scanBasic 0 (c :: s) = none := by
  rw [scanBasic]
  · exact fun _ e => quote (List.cons.inj e).1
  · exact fun _ _ e _ => absurd e (Nat.succ_ne_zero _).symm
  · exact fun _ _ _ e _ => absurd e (Nat.succ_ne_zero _).symm

theorem exists_succ {n m : Nat} (h : n + 1 ≤ m) : ∃ k, n ≤ k ∧ m = k + 1 := ⟨m - 1, by omega, by omega⟩

theorem scanBasic_append {fuel fuel' : Nat} (more : fuel ≤ fuel') {text : List Char}
    (h : scanBasic fuel s = some (text, rest)) (t : List Char) :
    scanBasic fuel' (s ++ t) = some (text, rest ++ t) := by
  induction fuel generalizing s text fuel' with
  | zero =>
    cases s with
    | nil => cases h
    | cons c s =>
      by_cases quote : c = '"'
      · subst quote
        rw [scanBasic_quote] at h
        cases h
        exact scanBasic_quote fuel' _
      · rw [scanBasic_zero quote] at h
        cases h
  | succ fuel ih =>
    obtain ⟨fuel', more', rfl⟩ := exists_succ more
    cases s with
    | nil => cases h
    | cons c s =>
      by_cases quote : c = '"'
      · subst quote
        rw [scanBasic_quote] at h
        cases h
        exact scanBasic_quote _ _
      · by_cases backslash : c = '\\'
        · subst backslash
          rw [scanBasic_escape, Option.bind_eq_some_iff] at h
          obtain ⟨⟨c, after⟩, escape, h⟩ := h
          obtain ⟨⟨cs, after'⟩, tail, h⟩ := Option.bind_eq_some_iff.mp h
          cases h
          rw [List.cons_append, scanBasic_escape, scanEscape_append escape]
          simp only [Option.bind_some, ih more' tail]
        · rw [scanBasic_plain quote backslash] at h
          rw [List.cons_append, scanBasic_plain quote backslash]
          split at h
          · rename_i printable
            obtain ⟨⟨cs, after⟩, tail, h⟩ := Option.bind_eq_some_iff.mp h
            cases h
            rw [if_pos printable, ih more' tail, Option.bind_some]
          · cases h

theorem drop_takeWhile {α : Type} (p : α → Bool) (l : List α) :
    l.drop (l.takeWhile p).length = l.dropWhile p := by
  induction l with
  | nil => rfl
  | cons a l ih =>
    rw [List.takeWhile_cons, List.dropWhile_cons]
    split
    · exact ih
    · rfl

/-- What is left when a run of characters ends inside of a text is left of a longer text as well. -/
theorem dropWhile_append_of_ne_nil {α : Type} {p : α → Bool} {l : List α} (some : l.dropWhile p ≠ [])
    (more : List α) : (l ++ more).dropWhile p = l.dropWhile p ++ more := by
  rw [List.dropWhile_append, if_neg (by simpa using some)]

theorem takeWhile_append_of_ne_nil {α : Type} {p : α → Bool} {l : List α} (some : l.dropWhile p ≠ [])
    (more : List α) : (l ++ more).takeWhile p = l.takeWhile p := by
  rw [List.takeWhile_append, if_neg]
  intro whole
  refine some ?_
  rw [← drop_takeWhile, whole, List.drop_length]

theorem scanLiteral_append {text : List Char} (h : scanLiteral s = some (text, rest)) (t : List Char) :
    scanLiteral (s ++ t) = some (text, rest ++ t) := by
  simp only [scanLiteral, drop_takeWhile] at h ⊢
  split at h
  · rename_i after
    cases h
    have some : (s.dropWhile fun c => c != '\'' && isPrintable c) ≠ [] := by simp [after]
    rw [dropWhile_append_of_ne_nil some, takeWhile_append_of_ne_nil some, after]
    rfl
  · cases h

theorem quoteRun_append (ends : EndsValue t) {quote : Char} (mark : isBreak quote = false) (s : List Char) :
    quoteRun quote (s ++ t) = quoteRun quote s := by
  have out : ∀ c ∈ t.head?, (c == quote) = false := fun c mem => beq_false_of_ne (ends.ne mark c mem)
  rw [quoteRun, quoteRun, takeWhile_append_of_head out]

theorem skipLines_append (h : GoesOn (skipLines s)) (t : List Char) :
    skipLines (s ++ t) = skipLines s ++ t := by
  induction s using skipLines.induct with
  | case1 s ih => exact ih h
  | case2 s ih => exact ih h
  | case3 s ih => exact ih h
  | case4 s ih => exact ih h
  | case5 s space tab feed both =>
    have same : skipLines s = s := by
      rw [skipLines]
      · exact space
      · exact tab
      · exact feed
      · exact both
    rw [same] at h ⊢
    have still := newline?_append h t
    have none : newline? s = .none := by
      unfold newline?
      split
      · exact absurd rfl (feed _)
      · exact absurd rfl (both _)
      · rfl
    obtain ⟨c, more, rfl⟩ := List.exists_cons_of_ne_nil h.1
    rw [none] at still
    rw [List.cons_append] at still ⊢
    rw [skipLines]
    · rintro _ e
      exact space _ (by rw [(List.cons.inj e).1])
    · rintro _ e
      exact tab _ (by rw [(List.cons.inj e).1])
    · rintro _ e
      exact feed _ (by rw [(List.cons.inj e).1])
    · rintro _ e
      rw [e] at still
      cases still

theorem skipSpaces_append (some : skipSpaces s ≠ []) (t : List Char) :
    skipSpaces (s ++ t) = skipSpaces s ++ t := dropWhile_append_of_ne_nil some t

def longStep (escapes : Bool) : List Char → Option (List Char × List Char)
  | [] => none
  | c :: rest =>
    match newline? (c :: rest) with
    | some after => some (['\n'], after)
    | none =>
      if escapes && c == '\\' then
        match joinLines? rest with
        | some after => some ([], after)
        | none => (scanEscape rest).map fun (c, after) => ([c], after)
      else if isPrintable c then some ([c], rest)
      else none

theorem scanLong_succ (quote : Char) (escapes : Bool) (fuel : Nat) (s : List Char) :
    scanLong quote escapes (fuel + 1) s =
      if 3 ≤ quoteRun quote s then
        some (List.replicate (min (quoteRun quote s - 3) 2) quote,
          s.drop (min (quoteRun quote s - 3) 2 + 3))
      else
        (longStep escapes s).bind fun (front, after) =>
          (scanLong quote escapes fuel after).map fun (cs, rest) => (front ++ cs, rest) := by
  rw [scanLong.eq_def]
  simp only
  split
  · rfl
  · cases s with
    | nil => rfl
    | cons c s =>
      simp only [longStep]
      cases newline? (c :: s) with
      | some after => rfl
      | none =>
        simp only
        split
        · cases joinLines? s with
          | some after => simp
          | none =>
            simp only
            cases scanEscape s <;> rfl
        · split <;> rfl

theorem goesOn_of_longStep {escapes : Bool} {found : List Char × List Char}
    (h : longStep escapes s = some found) : GoesOn s := by
  constructor
  · rintro rfl
    cases h
  · rintro rfl
    cases escapes <;> cases h

theorem joinLines?_append {after : List Char} (h : joinLines? s = some after) (goes : GoesOn after)
    (t : List Char) : joinLines? (s ++ t) = some (after ++ t) := by
  obtain ⟨rest, found, rfl⟩ := Option.map_eq_some_iff.mp h
  have next : GoesOn (skipSpaces s) := goesOn_of_newline? (by simp [found])
  rw [joinLines?, skipSpaces_append next.1, newline?_append next, found]
  exact congrArg Option.some (skipLines_append goes t)

/-- A backslash in front of an escape joins no lines. -/
theorem joinLines?_of_scanEscape {found : Char × List Char} (h : scanEscape s = some found) :
    joinLines? s = none := by
  obtain ⟨d, more, rfl, space, feed, return'⟩ := exists_of_scanEscape h
  rw [joinLines?, skipSpaces, List.dropWhile_cons_of_neg (by simp [space]), newline?_of_ne feed return']
  rfl

theorem longStep_append {escapes : Bool} {front after : List Char}
    (h : longStep escapes s = some (front, after)) (goes : GoesOn after) (t : List Char) :
    longStep escapes (s ++ t) = some (front, after ++ t) := by
  have here := newline?_append (goesOn_of_longStep h) t
  cases s with
  | nil => cases h
  | cons c s =>
    rw [longStep] at h
    rw [List.cons_append] at here ⊢
    rw [longStep, here]
    cases next : newline? (c :: s) with
    | some rest =>
      rw [next] at h
      cases h
      rfl
    | none =>
      rw [next] at h
      simp only [Option.map_none] at h ⊢
      split at h
      · rename_i escape
        rw [if_pos escape]
        cases joins : joinLines? s with
        | some rest =>
          rw [joins] at h
          cases h
          rw [joinLines?_append joins goes]
        | none =>
          rw [joins] at h
          obtain ⟨⟨d, rest⟩, found, h⟩ := Option.map_eq_some_iff.mp h
          cases h
          rw [joinLines?_of_scanEscape (scanEscape_append found t), scanEscape_append found]
          rfl
      · rename_i escape
        rw [if_neg escape]
        split at h
        · rename_i printable
          cases h
          rw [if_pos printable]
        · cases h

theorem scanLong_append (ends : EndsValue t) {quote : Char} (mark : isBreak quote = false)
    {escapes : Bool} {fuel fuel' : Nat} (more : fuel ≤ fuel') {text : List Char}
    (h : scanLong quote escapes fuel s = some (text, rest)) :
    GoesOn s ∧ scanLong quote escapes fuel' (s ++ t) = some (text, rest ++ t) := by
  induction fuel generalizing s text fuel' with
  | zero => cases h
  | succ fuel ih =>
    obtain ⟨fuel', more', rfl⟩ := exists_succ more
    rw [scanLong_succ] at h
    rw [scanLong_succ, quoteRun_append ends mark]
    split at h
    · rename_i closed
      have long : quoteRun quote s ≤ s.length := (List.takeWhile_prefix _).length_le
      rw [if_pos closed]
      cases h
      rw [List.drop_append_of_le_length (by omega)]
      refine ⟨?_, rfl⟩
      cases s with
      | nil => cases closed
      | cons c s =>
        have first : c = quote := by
          by_contra other
          rw [quoteRun, List.takeWhile_cons_of_neg (by simpa using other)] at closed
          cases closed
        refine goesOn_of_ne ?_ s
        rintro rfl
        rw [← first] at mark
        cases mark
    · rename_i stays
      obtain ⟨⟨front, after⟩, step, h⟩ := Option.bind_eq_some_iff.mp h
      obtain ⟨⟨cs, rest'⟩, tail, h⟩ := Option.map_eq_some_iff.mp h
      cases h
      obtain ⟨goes, tail'⟩ := ih more' tail
      rw [if_neg stays, longStep_append step goes]
      exact ⟨goesOn_of_longStep step, by simp [tail']⟩

theorem scanLongString_append (ends : EndsValue t) {quote : Char} (mark : isBreak quote = false)
    {escapes : Bool} {text : List Char} (h : scanLongString quote escapes s = some (text, rest)) :
    scanLongString quote escapes (s ++ t) = some (text, rest ++ t) := by
  have fuel : s.length + 1 ≤ (s ++ t).length + 1 := by simp
  obtain ⟨goes, found⟩ := scanLong_append ends mark fuel h
  have first : GoesOn s := by
    cases next : newline? s with
    | none => rwa [next] at goes
    | some after => exact goesOn_of_newline? (by simp [next])
  rw [scanLongString, newline?_append first]
  cases next : newline? s with
  | none => rwa [next] at found
  | some after => rwa [next] at found

theorem scanString_eq (s : List Char) : scanString s =
    (if ['"', '"', '"'].isPrefixOf s then scanLongString '"' true (s.drop 3)
    else if ['\'', '\'', '\''].isPrefixOf s then scanLongString '\'' false (s.drop 3)
    else if ['"'].isPrefixOf s then scanBasic s.length (s.drop 1)
    else if ['\''].isPrefixOf s then scanLiteral (s.drop 1)
    else none).map fun (text, rest) => (String.ofList text, rest) := by
  unfold scanString
  split
  · rfl
  · rfl
  · rename_i rest long
    rw [if_neg (not_isPrefixOf fun rest' e => long rest' (List.cons.inj e).2)]
    rfl
  · rename_i rest _ long
    rw [if_neg (by simp [List.isPrefixOf]),
      if_neg (not_isPrefixOf fun rest' e => long rest' (List.cons.inj e).2)]
    rfl
  · rename_i long long' basic literal
    rw [if_neg (not_isPrefixOf long), if_neg (not_isPrefixOf long'), if_neg (not_isPrefixOf basic),
      if_neg (not_isPrefixOf literal)]

theorem scanString_append (ends : EndsValue t) {text : String} (h : scanString s = some (text, rest)) :
    scanString (s ++ t) = some (text, rest ++ t) := by
  rw [scanString_eq] at h ⊢
  obtain ⟨⟨cs, rest'⟩, h, e⟩ := Option.map_eq_some_iff.mp h
  cases e
  refine Option.map_eq_some_iff.mpr ⟨(cs, rest ++ t), ?_, rfl⟩
  simp only [isPrefixOf_append ends ['"', '"', '"'] (by decide),
    isPrefixOf_append ends ['\'', '\'', '\''] (by decide),
    isPrefixOf_append ends ['"'] (by decide),
    isPrefixOf_append ends ['\''] (by decide)]
  split at h
  · rename_i long
    have after : (s ++ t).drop 3 = s.drop 3 ++ t := drop_append_of_isPrefixOf long t
    rw [if_pos long, after]
    exact scanLongString_append ends (by decide) h
  · rename_i basic
    rw [if_neg basic]
    split at h
    · rename_i long
      have after : (s ++ t).drop 3 = s.drop 3 ++ t := drop_append_of_isPrefixOf long t
      rw [if_pos long, after]
      exact scanLongString_append ends (by decide) h
    · rename_i literal
      rw [if_neg literal]
      split at h
      · rename_i quote
        have after : (s ++ t).drop 1 = s.drop 1 ++ t := drop_append_of_isPrefixOf quote t
        rw [if_pos quote, after]
        exact scanBasic_append (by simp) h t
      · rename_i other
        rw [if_neg other]
        split at h
        · rename_i quote
          have after : (s ++ t).drop 1 = s.drop 1 ++ t := drop_append_of_isPrefixOf quote t
          rw [if_pos quote, after]
          exact scanLiteral_append h t
        · cases h

end
end Apportion.Toml
