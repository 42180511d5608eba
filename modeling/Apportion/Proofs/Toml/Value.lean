import Apportion.Proofs.Toml.Quoted

/-!
Keys and values in front of the end of a line. A text that is a value by itself is read as this value if
the end of a line follows it (`scanValue_append`): no string, array or inline table in it is left open, and
no number goes on.
-/
namespace Apportion.Toml

section
variable {s t rest : List Char}

/-! ## Keys -/

theorem append_ne_cons {c : Char} (open' : s ≠ []) (other : ∀ rest, s ≠ c :: rest) (t rest : List Char) :
    s ++ t ≠ c :: rest := by
  obtain ⟨d, more, rfl⟩ := List.exists_cons_of_ne_nil open'
  intro e
  exact other more (by rw [(List.cons.inj e).1])

theorem isBareKeyChar_eq_false (ends : EndsValue t) : ∀ c ∈ t.head?, isBareKeyChar c = false :=
  ends.out (by decide)

theorem scanSimpleKey_of_ne (basic : ∀ c ∈ s.head?, c ≠ '"') (literal : ∀ c ∈ s.head?, c ≠ '\'') :
    scanSimpleKey s =
      if s.takeWhile isBareKeyChar = [] then none
      else some (String.ofList (s.takeWhile isBareKeyChar), s.dropWhile isBareKeyChar) := by
  unfold scanSimpleKey
  split
  · exact absurd rfl (basic _ rfl)
  · exact absurd rfl (literal _ rfl)
  · split
    · rename_i e
      rw [if_pos e]
    · rename_i bare
      rw [if_neg bare]

theorem scanSimpleKey_append (ends : EndsValue t) {key : String}
    (h : scanSimpleKey s = some (key, rest)) : scanSimpleKey (s ++ t) = some (key, rest ++ t) := by
  cases s with
  | nil => cases h
  | cons c s =>
    by_cases basic : c = '"'
    · subst basic
      obtain ⟨⟨cs, rest'⟩, found, e⟩ := Option.map_eq_some_iff.mp h
      cases e
      rw [List.cons_append, scanSimpleKey, scanBasic_append (by simp) found, Option.map_some]
    · by_cases literal : c = '\''
      · subst literal
        obtain ⟨⟨cs, rest'⟩, found, e⟩ := Option.map_eq_some_iff.mp h
        cases e
        rw [List.cons_append, scanSimpleKey, scanLiteral_append found, Option.map_some]
      · have out := isBareKeyChar_eq_false ends
        rw [scanSimpleKey_of_ne (by simpa using basic) (by simpa using literal)] at h
        rw [scanSimpleKey_of_ne (by simpa using basic) (by simpa using literal),
          takeWhile_append_of_head out, dropWhile_append_of_head out]
        split at h
        · cases h
        · rename_i bare
          cases h
          rw [if_neg bare]

theorem scanKeys_append (ends : EndsValue t) {fuel fuel' : Nat} (more : fuel ≤ fuel')
    {keys : List String} (h : scanKeys fuel s = some (keys, rest)) (open' : rest ≠ []) :
    scanKeys fuel' (s ++ t) = some (keys, rest ++ t) := by
  induction fuel generalizing s keys fuel' with
  | zero => cases h
  | succ fuel ih =>
    obtain ⟨fuel', more', rfl⟩ := exists_succ more
    rw [scanKeys, Option.bind_eq_bind, Option.bind_eq_some_iff] at h
    obtain ⟨⟨key, after⟩, first, h⟩ := h
    have some : skipSpaces s ≠ [] := by
      intro e
      rw [e] at first
      cases first
    rw [scanKeys, skipSpaces_append some, scanSimpleKey_append ends first]
    simp only [Option.bind_eq_bind, Option.bind_some]
    simp only at h
    split at h
    · rename_i dotted e
      obtain ⟨⟨keys', rest'⟩, tail, h⟩ := Option.bind_eq_some_iff.mp h
      cases h
      rw [skipSpaces_append (by simp [e]), e, List.cons_append]
      simp only [ih more' tail, Option.bind_some]
    · rename_i single
      cases h
      rw [skipSpaces_append open']
      split
      · rename_i dotted e
        exact absurd e (append_ne_cons open' single t dotted)
      · rfl

theorem scanKey_append (ends : EndsValue t) {keys : List String}
    (h : scanKey s = some (keys, rest)) (open' : rest ≠ []) :
    scanKey (s ++ t) = some (keys, rest ++ t) := by
  obtain ⟨found, short⟩ := Option.filter_eq_some_iff.mp h
  refine Option.filter_eq_some_iff.mpr ⟨?_, short⟩
  exact scanKeys_append ends (by simp) found open'

/-! ## Arrays and inline tables -/

theorem skipComment_cons {c : Char} (mark : c ≠ '#') (s : List Char) : skipComment (c :: s) = c :: s := by
  unfold skipComment
  split
  · rename_i e
    exact absurd (List.cons.inj e).1 mark
  · rfl

theorem skipComment_append (some : skipComment s ≠ []) (t : List Char) :
    skipComment (s ++ t) = skipComment s ++ t := by
  cases s with
  | nil => exact absurd rfl some
  | cons c s =>
    by_cases mark : c = '#'
    · subst mark
      exact dropWhile_append_of_ne_nil some t
    · rw [List.cons_append, skipComment_cons mark, skipComment_cons mark, List.cons_append]

theorem skipGap_succ (fuel : Nat) (s : List Char) : skipGap (fuel + 1) s =
    match newline? (skipComment (skipSpaces s)) with
    | some rest => skipGap fuel rest
    | none => skipComment (skipSpaces s) := rfl

theorem length_of_newline? (h : newline? s = some rest) : rest.length < s.length := by
  unfold newline? at h
  split at h
  · cases h
    exact Nat.lt_succ_self _
  · cases h
    exact Nat.lt_succ_of_lt (Nat.lt_succ_self _)
  · cases h

theorem length_skipComment_le (s : List Char) : (skipComment s).length ≤ s.length := by
  unfold skipComment
  split
  · exact Nat.le_succ_of_le (List.dropWhile_suffix _).length_le
  · exact le_rfl

theorem length_of_newline?_skip (h : newline? (skipComment (skipSpaces s)) = some rest) :
    rest.length < s.length :=
  calc rest.length < (skipComment (skipSpaces s)).length := length_of_newline? h
    _ ≤ (skipSpaces s).length := length_skipComment_le _
    _ ≤ s.length := (List.dropWhile_suffix _).length_le

/-- Past spaces and a comment, a text that goes on afterwards is read as in a longer one. -/
theorem skipComment_skipSpaces_append (some : skipComment (skipSpaces s) ≠ []) (t : List Char) :
    skipComment (skipSpaces (s ++ t)) = skipComment (skipSpaces s) ++ t := by
  have front : skipSpaces s ≠ [] := by
    intro e
    rw [e] at some
    exact some rfl
  rw [skipSpaces_append front, skipComment_append some]

theorem skipGap_eq_of_le {fuel fuel' : Nat} (enough : s.length < fuel) (more : fuel ≤ fuel') :
    skipGap fuel' s = skipGap fuel s := by
  induction fuel generalizing s fuel' with
  | zero => cases enough
  | succ fuel ih =>
    obtain ⟨fuel', more', rfl⟩ := exists_succ more
    rw [skipGap_succ, skipGap_succ]
    cases next : newline? (skipComment (skipSpaces s)) with
    | none => rfl
    | some rest => exact ih (by have := length_of_newline?_skip next; omega) more'

theorem skipGap_append {fuel fuel' : Nat} (enough : s.length < fuel) (more : fuel ≤ fuel')
    (goes : GoesOn (skipGap fuel s)) (t : List Char) : skipGap fuel' (s ++ t) = skipGap fuel s ++ t := by
  induction fuel generalizing s fuel' with
  | zero => cases enough
  | succ fuel ih =>
    obtain ⟨fuel', more', rfl⟩ := exists_succ more
    rw [skipGap_succ] at goes
    have here : GoesOn (skipComment (skipSpaces s)) := by
      cases next : newline? (skipComment (skipSpaces s)) with
      | some rest => exact goesOn_of_newline? (by simp [next])
      | none => rwa [next] at goes
    rw [skipGap_succ, skipGap_succ, skipComment_skipSpaces_append here.1, newline?_append here]
    cases next : newline? (skipComment (skipSpaces s)) with
    | none => rfl
    | some rest =>
      rw [next] at goes
      have short := length_of_newline?_skip next
      exact ih (by omega) more' goes

theorem skipBlank_append (goes : GoesOn (skipBlank s)) (t : List Char) :
    skipBlank (s ++ t) = skipBlank s ++ t :=
  skipGap_append (Nat.lt_succ_self _) (by simp) goes t

theorem skipBlank_append_of_cons {c : Char} (e : skipBlank s = c :: rest) (return' : c ≠ '\r')
    (t : List Char) : skipBlank (s ++ t) = c :: (rest ++ t) := by
  rw [skipBlank_append (e ▸ goesOn_of_ne return' rest), e, List.cons_append]

/-- A value that is neither an array nor an inline table. -/
def scanFlat (s : List Char) : Option (Toml × List Char) :=
  if ['"'].isPrefixOf s || ['\''].isPrefixOf s then
    (scanString s).map fun (text, rest) => (.string text, rest)
  else if ['t', 'r', 'u', 'e'].isPrefixOf s then some (.boolean true, s.drop 4)
  else if ['f', 'a', 'l', 's', 'e'].isPrefixOf s then some (.boolean false, s.drop 5)
  else scanPlain s

theorem scanValue_of_ne (array : ∀ c ∈ s.head?, c ≠ '[') (table : ∀ c ∈ s.head?, c ≠ '\x7b')
    (fuel depth : Nat) : scanValue (fuel + 1) depth s = scanFlat s := by
  unfold scanValue
  split
  · exact absurd rfl (array _ rfl)
  · exact absurd rfl (table _ rfl)
  · rfl
  · rfl
  · rfl
  · rfl
  · rename_i basic literal true' false'
    rw [scanFlat, if_neg, if_neg (not_isPrefixOf true'), if_neg (not_isPrefixOf false')]
    rw [Bool.or_eq_true, not_or]
    exact ⟨not_isPrefixOf basic, not_isPrefixOf literal⟩

theorem scanFlat_append (ends : EndsValue t) {v : Toml} (h : scanFlat s = some (v, rest)) :
    scanFlat (s ++ t) = some (v, rest ++ t) := by
  unfold scanFlat at h ⊢
  simp only [isPrefixOf_append ends ['"'] (by decide),
    isPrefixOf_append ends ['\''] (by decide),
    isPrefixOf_append ends ['t', 'r', 'u', 'e'] (by decide),
    isPrefixOf_append ends ['f', 'a', 'l', 's', 'e'] (by decide)]
  split at h
  · rename_i quote
    obtain ⟨⟨text, rest'⟩, found, e⟩ := Option.map_eq_some_iff.mp h
    cases e
    rw [if_pos quote, scanString_append ends found, Option.map_some]
  · rename_i quote
    rw [if_neg quote]
    split at h
    · rename_i word
      cases h
      rw [if_pos word]
      exact congrArg (fun rest => some (Toml.boolean true, rest)) (drop_append_of_isPrefixOf word t)
    · rename_i other
      rw [if_neg other]
      split at h
      · rename_i word
        cases h
        rw [if_pos word]
        exact congrArg (fun rest => some (Toml.boolean false, rest)) (drop_append_of_isPrefixOf word t)
      · rename_i other'
        rw [if_neg other', scanPlain_append ends, h, Option.map_some]

theorem goesOn_of_scanValue {fuel depth : Nat} {found : Toml × List Char}
    (h : scanValue fuel depth s = some found) : GoesOn s := by
  constructor
  · rintro rfl
    cases fuel <;> cases h
  · rintro rfl
    cases fuel <;> cases h

theorem scanValue_array (fuel depth : Nat) (s : List Char) : scanValue (fuel + 1) depth ('[' :: s) =
    if depth + 1 < depthLimit then
      (scanItems fuel (depth + 1) s).map fun (items, rest) => (.array items, rest)
    else none := rfl

theorem scanItems_succ (fuel depth : Nat) (s : List Char) : scanItems (fuel + 1) depth s =
    match skipBlank s with
    | ']' :: rest => some ([], rest)
    | s =>
      match scanValue fuel depth s with
      | none => none
      | some (item, rest) =>
        match skipBlank rest with
        | ']' :: rest => some ([item], rest)
        | ',' :: rest => (scanItems fuel depth rest).map fun (items, rest) => (item :: items, rest)
        | _ => none := rfl

/-- One more unit of fuel and a longer text change nothing that was read. -/
def Reads {α : Type} (read : Nat → List Char → Option (α × List Char)) (t : List Char) (fuel : Nat) : Prop :=
  ∀ {fuel' s a rest}, fuel ≤ fuel' → read fuel s = some (a, rest) → read fuel' (s ++ t) = some (a, rest ++ t)

theorem scanItems_append {fuel : Nat} (value : ∀ depth, Reads (scanValue · depth) t fuel)
    (items : ∀ depth, Reads (scanItems · depth) t fuel) (depth : Nat) :
    Reads (scanItems · depth) t (fuel + 1) := by
  intro fuel' s found rest more h
  obtain ⟨fuel', more', rfl⟩ := exists_succ more
  simp only [scanItems_succ] at h ⊢
  split at h
  · rename_i after e
    cases h
    rw [skipBlank_append_of_cons e (by decide)]
    rfl
  · rename_i open'
    split at h
    · cases h
    · rename_i item after read
      have goes := goesOn_of_scanValue read
      rw [skipBlank_append goes]
      split
      · rename_i after' e
        exact absurd e (append_ne_cons goes.1 open' t after')
      · simp only [value depth more' read]
        split at h
        · rename_i after' e
          cases h
          rw [skipBlank_append_of_cons e (by decide)]
          rfl
        · rename_i after' e
          obtain ⟨⟨found', rest'⟩, tail, h⟩ := Option.map_eq_some_iff.mp h
          cases h
          rw [skipBlank_append_of_cons e (by decide)]
          simp only [items depth more' tail, Option.map_some]
        · cases h

theorem scanInline_succ (fuel depth : Nat) (es : Entries) (s : List Char) :
    scanInline (fuel + 1) depth es s =
      match scanKey s with
      | some (keys, '=' :: rest) =>
        match scanValue fuel depth (skipSpaces rest), keys.getLast? with
        | some (value, rest), some key =>
          match es.assign none keys.dropLast key value, skipSpaces rest with
          | some es, '\x7d' :: rest => some (es, rest)
          | some es, ',' :: rest => scanInline fuel depth es rest
          | _, _ => none
        | _, _ => none
      | _ => none := rfl

theorem scanInline_append (ends : EndsValue t) {fuel : Nat}
    (value : ∀ depth, Reads (scanValue · depth) t fuel)
    (inline : ∀ depth es, Reads (scanInline · depth es) t fuel) (depth : Nat) (es : Entries) :
    Reads (scanInline · depth es) t (fuel + 1) := by
  intro fuel' s found rest more h
  obtain ⟨fuel', more', rfl⟩ := exists_succ more
  simp only [scanInline_succ] at h ⊢
  split at h
  · rename_i keys after key
    rw [scanKey_append ends key (List.cons_ne_nil _ _), List.cons_append]
    split at h
    · rename_i v after' last read name
      simp only [skipSpaces_append (goesOn_of_scanValue read).1, value depth more' read, name]
      split at h
      · rename_i es' after'' assigned e
        cases h
        rw [assigned, skipSpaces_append (by simp [e]), e]
        rfl
      · rename_i es' after'' assigned e
        rw [assigned, skipSpaces_append (by simp [e]), e]
        exact inline depth es' more' h
      · cases h
    · cases h
  · cases h

theorem scanValue_table (fuel depth : Nat) (s : List Char) : scanValue (fuel + 1) depth ('\x7b' :: s) =
    if depth + 1 < depthLimit then
      match skipSpaces s with
      | '\x7d' :: rest => some (.table [], rest)
      | rest => (scanInline fuel (depth + 1) [] rest).map fun (es, rest) => (.table (entriesToToml es), rest)
    else none := rfl

theorem scanInline_nil (fuel depth : Nat) (es : Entries) : scanInline fuel depth es [] = none := by
  cases fuel <;> rfl

theorem scanArray_append {fuel fuel' : Nat} (more : fuel ≤ fuel')
    (items : ∀ depth, Reads (scanItems · depth) t fuel) {depth : Nat} {v : Toml}
    (h : scanValue (fuel + 1) depth ('[' :: s) = some (v, rest)) :
    scanValue (fuel' + 1) depth ('[' :: (s ++ t)) = some (v, rest ++ t) := by
  rw [scanValue_array] at h ⊢
  split at h
  · rename_i shallow
    obtain ⟨⟨found, after⟩, read, h⟩ := Option.map_eq_some_iff.mp h
    cases h
    have read' := items (depth + 1) more read
    simp only at read'
    rw [if_pos shallow, read', Option.map_some]
  · cases h

theorem scanTable_append {fuel fuel' : Nat} (more : fuel ≤ fuel')
    (inline : ∀ depth es, Reads (scanInline · depth es) t fuel) {depth : Nat} {v : Toml}
    (h : scanValue (fuel + 1) depth ('\x7b' :: s) = some (v, rest)) :
    scanValue (fuel' + 1) depth ('\x7b' :: (s ++ t)) = some (v, rest ++ t) := by
  rw [scanValue_table] at h ⊢
  split at h
  · rename_i shallow
    rw [if_pos shallow]
    split at h
    · rename_i after e
      cases h
      rw [skipSpaces_append (by simp [e]), e]
      rfl
    · rename_i open'
      obtain ⟨⟨found, after⟩, read, h⟩ := Option.map_eq_some_iff.mp h
      cases h
      have some : skipSpaces s ≠ [] := by
        intro e
        rw [e, scanInline_nil] at read
        cases read
      rw [skipSpaces_append some]
      split
      · rename_i after' e
        exact absurd e (append_ne_cons some open' t after')
      · have read' := inline (depth + 1) [] more read
        simp only at read'
        rw [read', Option.map_some]
  · cases h

theorem scanValue_step (ends : EndsValue t) {fuel : Nat} (items : ∀ depth, Reads (scanItems · depth) t fuel)
    (inline : ∀ depth es, Reads (scanInline · depth es) t fuel) (depth : Nat) :
    Reads (scanValue · depth) t (fuel + 1) := by
  intro fuel' s found rest more h
  obtain ⟨fuel', more', rfl⟩ := exists_succ more
  obtain ⟨c, s, rfl⟩ := List.exists_cons_of_ne_nil (goesOn_of_scanValue h).1
  simp only [List.cons_append] at h ⊢
  by_cases array : c = '['
  · subst array
    exact scanArray_append more' items h
  · by_cases table : c = '\x7b'
    · subst table
      exact scanTable_append more' inline h
    · rw [scanValue_of_ne (by simpa using array) (by simpa using table)] at h ⊢
      exact scanFlat_append ends h

/-- What is a value at the front of a text is the same value if the end of a line comes behind the text. -/
theorem reads_scanValue (ends : EndsValue t) (fuel : Nat) :
    (∀ depth, Reads (scanValue · depth) t fuel) ∧ (∀ depth, Reads (scanItems · depth) t fuel) ∧
      ∀ depth es, Reads (scanInline · depth es) t fuel := by
  induction fuel with
  | zero =>
    refine ⟨?value, ?items, ?inline⟩
    case value =>
      intro depth fuel' s v rest more h
      cases h
    case items =>
      intro depth fuel' s items rest more h
      cases h
    case inline =>
      intro depth es fuel' s es' rest more h
      cases h
  | succ fuel ih =>
    obtain ⟨value, items, inline⟩ := ih
    exact ⟨scanValue_step ends items inline, scanItems_append value items,
      scanInline_append ends value inline⟩

theorem scanValue_append (ends : EndsValue t) {fuel fuel' depth : Nat} (more : fuel ≤ fuel') {v : Toml}
    (h : scanValue fuel depth s = some (v, rest)) :
    scanValue fuel' depth (s ++ t) = some (v, rest ++ t) :=
  (reads_scanValue ends fuel).1 depth more h

end
end Apportion.Toml
