import Apportion.Proofs.Text.Lines
import Apportion.Proofs.Toml.Value
import Mathlib.Data.List.Forall2

/-!
Documents line by line. A document of headers `[name]` and of entries `key = value`, each on a line of its
own and with bare keys, is read as its lines are read one after the other (`read_eq`).
-/
namespace Apportion.Toml
open Text

/-! ## Rows -/

/-- What a line says: nothing, that a table begins, or which value a key has. -/
inductive Row
  | blank
  | header (name : String)
  | entry (key : String) (value : Toml)

/-- A key that needs no quotes. -/
def IsBare (key : List Char) : Prop := key ≠ [] ∧ ∀ c ∈ key, isBareKeyChar c = true

instance (key : List Char) : Decidable (IsBare key) :=
  decidable_of_iff (key ≠ [] ∧ key.all isBareKeyChar = true) (by rw [IsBare, List.all_eq_true])

/-- What a line may end with: blanks, and perhaps a comment. -/
def IsRemark (s : List Char) : Prop := skipComment (skipSpaces s) = []

instance (s : List Char) : Decidable (IsRemark s) :=
  inferInstanceAs (Decidable (skipComment (skipSpaces s) = []))

/-- The value that a text is, up to blanks in front of it. -/
def value? (text : List Char) : Option Toml :=
  match scanValue (2 * text.length + 2) 0 (skipSpaces text) with
  | some (value, []) => some value
  | _ => none

/-- A line and what it says. -/
inductive Row.Written : List Char → Row → Prop
  | blank {line : List Char} (remark : IsRemark line) : Row.Written line .blank
  | header {indent front back remark : List Char} {name : String}
      (spaces : ∀ c ∈ indent ++ front ++ back, isSpace c = true) (bare : IsBare name.toList)
      (end' : IsRemark remark) :
      Row.Written (indent ++ '[' :: (front ++ name.toList ++ back ++ ']' :: remark)) (.header name)
  | entry {indent back text remark : List Char} {key : String} {value : Toml}
      (spaces : ∀ c ∈ indent ++ back, isSpace c = true) (bare : IsBare key.toList)
      (read : value? text = some value) (end' : IsRemark remark) :
      Row.Written (indent ++ key.toList ++ back ++ '=' :: (text ++ remark)) (.entry key value)

/-- The tables with what one more line says. -/
def Draft.take (d : Draft) : Row → Option Draft
  | .blank => some d
  | .header name => d.openTable [name]
  | .entry key value => d.assign [] key value

section
variable {s t rest : List Char}

/-! ## Ends of lines -/

theorem skipSpaces_append_of_spaces (spaces : ∀ c ∈ s, isSpace c = true) (t : List Char) :
    skipSpaces (s ++ t) = skipSpaces t :=
  List.dropWhile_append_of_pos spaces

theorem skipSpaces_append_of_nil (blank : skipSpaces s = []) (t : List Char) :
    skipSpaces (s ++ t) = skipSpaces t :=
  skipSpaces_append_of_spaces (List.dropWhile_eq_nil_iff.mp blank) t

/-- A text with blanks in front starts with one of them or with what comes behind. -/
theorem head?_of_spaces (spaces : ∀ c ∈ s, isSpace c = true) {c : Char} (busy : isSpace c = false)
    (h : (s ++ t).head? = some c) : t.head? = some c := by
  cases s with
  | nil => exact h
  | cons d s =>
    have space := spaces d List.mem_cons_self
    rw [Option.some.inj h, busy] at space
    cases space

theorem skipSpaces_cons {c : Char} (busy : isSpace c = false) (s : List Char) :
    skipSpaces (c :: s) = c :: s :=
  List.dropWhile_cons_of_neg (by simp [busy])

theorem IsRemark.skip (remark : IsRemark s) (ends : EndsLine t rest) :
    skipComment (skipSpaces (s ++ t)) = t := by
  have same : skipComment (skipSpaces t) = t := by
    rcases ends with ⟨rfl, rfl⟩ | rfl | rfl
    all_goals rfl
  have stops : t.dropWhile isPrintable = t := by
    rcases ends with ⟨rfl, rfl⟩ | rfl | rfl
    all_goals rfl
  rw [IsRemark] at remark
  cases e : skipSpaces s with
  | nil => rw [skipSpaces_append_of_nil e, same]
  | cons c more =>
    rw [e] at remark
    rw [skipSpaces_append (by simp [e]), e]
    by_cases mark : c = '#'
    · subst mark
      have all : more.dropWhile isPrintable = [] := remark
      change (more ++ t).dropWhile isPrintable = t
      rw [List.dropWhile_append, all]
      exact stops
    · rw [skipComment_cons mark] at remark
      cases remark

theorem IsRemark.endsValue (remark : IsRemark s) (ends : EndsLine t rest) : EndsValue (s ++ t) := by
  intro c mem
  by_cases blank : skipSpaces s = []
  · -- all of the remark is blanks, so the end of the line comes first
    rw [skipSpaces_append_of_nil blank] at mem
    rcases ends with ⟨rfl, rfl⟩ | rfl | rfl
    · cases mem
    · exact .inr (.inl (Option.some.inj mem).symm)
    · exact .inr (.inr (Option.some.inj mem).symm)
  · rw [skipSpaces_append blank] at mem
    obtain ⟨d, more, e⟩ := List.exists_cons_of_ne_nil blank
    rw [e] at mem
    obtain rfl := Option.some.inj mem
    by_contra other
    rw [IsRemark, e, skipComment_cons fun mark => other (.inl mark)] at remark
    cases remark

theorem lineEnd?_append (remark : IsRemark s) (ends : EndsLine t rest) :
    lineEnd? (s ++ t) = some rest := by
  rw [lineEnd?, remark.skip ends]
  rcases ends with ⟨rfl, rfl⟩ | rfl | rfl
  all_goals rfl

/-! ## Keys -/

theorem not_isSpace_of_isBareKeyChar {c : Char} (bare : isBareKeyChar c = true) : isSpace c = false := by
  cases space : isSpace c with
  | false => rfl
  | true =>
    rw [isSpace, Bool.or_eq_true, beq_iff_eq, beq_iff_eq] at space
    rcases space with rfl | rfl <;> cases bare

theorem ne_of_isBareKeyChar {c d : Char} (bare : isBareKeyChar c = true) (other : isBareKeyChar d = false) :
    c ≠ d := by
  rintro rfl
  rw [bare] at other
  cases other

theorem IsBare.head {key : List Char} (bare : IsBare key) (s : List Char) :
    ∃ c more, key ++ s = c :: more ∧ isBareKeyChar c = true := by
  obtain ⟨c, more, rfl⟩ := List.exists_cons_of_ne_nil bare.1
  exact ⟨c, more ++ s, rfl, bare.2 c List.mem_cons_self⟩

theorem scanSimpleKey_of_bare {key : String} (bare : IsBare key.toList)
    (out : ∀ c ∈ t.head?, isBareKeyChar c = false) : scanSimpleKey (key.toList ++ t) = some (key, t) := by
  have front := takeWhile_append_of_head out key.toList
  have back := dropWhile_append_of_head out key.toList
  rw [List.takeWhile_eq_self_iff.mpr bare.2] at front
  rw [List.dropWhile_eq_nil_iff.mpr bare.2, List.nil_append] at back
  obtain ⟨c, more, whole, first⟩ := bare.head t
  rw [whole] at front back ⊢
  rw [scanSimpleKey_of_ne (by simpa using ne_of_isBareKeyChar first (by decide))
    (by simpa using ne_of_isBareKeyChar first (by decide)), front, back, if_neg bare.1, String.ofList_toList]

/-- A bare key with blanks around it, and something behind it that starts no other key. -/
theorem scanKey_of_bare (front : List Char) {back : List Char} {key : String} {c : Char}
    (spaces : ∀ d ∈ front ++ back, isSpace d = true) (bare : IsBare key.toList)
    (busy : isSpace c = false) (out : isBareKeyChar c = false) (dot : c ≠ '.') (s : List Char) :
    scanKey (front ++ (key.toList ++ (back ++ c :: s))) = some ([key], c :: s) := by
  rw [List.forall_mem_append] at spaces
  have first : skipSpaces (key.toList ++ (back ++ c :: s)) = key.toList ++ (back ++ c :: s) := by
    obtain ⟨d, more, e, head⟩ := bare.head (back ++ c :: s)
    rw [e]
    exact skipSpaces_cons (not_isSpace_of_isBareKeyChar head) _
  have after : ∀ d ∈ (back ++ c :: s).head?, isBareKeyChar d = false := by
    intro d mem
    cases back with
    | nil => exact Option.some.inj mem ▸ out
    | cons e back =>
      obtain rfl := Option.some.inj mem
      have space := spaces.2 e List.mem_cons_self
      by_contra bare
      rw [not_isSpace_of_isBareKeyChar (by simpa using bare)] at space
      cases space
  refine Option.filter_eq_some_iff.mpr ⟨?_, by simp [depthLimit]⟩
  rw [scanKeys, skipSpaces_append_of_spaces spaces.1, first, scanSimpleKey_of_bare bare after]
  simp only [Option.bind_eq_bind, Option.bind_some, skipSpaces_append_of_spaces spaces.2,
    skipSpaces_cons busy]
  split
  · rename_i e
    exact absurd (List.cons.inj e).1 dot
  · rfl

/-! ## One line -/

theorem skipBlank_of_spaces (spaces : ∀ d ∈ s, isSpace d = true) {c : Char} (busy : isSpace c = false)
    (mark : c ≠ '#') (feed : c ≠ '\n') (return' : c ≠ '\r') (t : List Char) :
    skipBlank (s ++ c :: t) = c :: t := by
  rw [skipBlank, skipGap_succ, skipSpaces_append_of_spaces spaces, skipSpaces_cons busy,
    skipComment_cons mark, newline?_of_ne feed return']

theorem skipBlank_of_remark (remark : IsRemark s) (ends : EndsLine t rest) :
    skipBlank (s ++ t) = skipBlank rest := by
  rw [skipBlank, skipGap_succ, remark.skip ends]
  have next : newline? t = none ∧ t = [] ∧ rest = [] ∨ newline? t = some rest := by
    rcases ends with ⟨rfl, rfl⟩ | rfl | rfl
    · exact .inl ⟨rfl, rfl, rfl⟩
    · exact .inr rfl
    · exact .inr rfl
  rcases next with ⟨none, rfl, rfl⟩ | some
  · rw [none]
    rfl
  · rw [some]
    have short := length_of_newline? some
    refine skipGap_eq_of_le (Nat.lt_succ_self _) ?_
    rw [List.length_append]
    omega

theorem scanHeader_of_bare {front back remark : List Char} {name : String}
    (spaces : ∀ c ∈ front ++ back, isSpace c = true) (bare : IsBare name.toList) (end' : IsRemark remark)
    (ends : EndsLine t rest) :
    scanHeader [']'] (front ++ name.toList ++ back ++ ']' :: remark ++ t) = some ([name], rest) := by
  have key := scanKey_of_bare front spaces bare (c := ']') (by decide) (by decide) (by decide) (remark ++ t)
  simp only [List.append_assoc, List.cons_append]
  simp [scanHeader, key, lineEnd?_append end' ends]

theorem scanAssignment_of_bare {back text remark : List Char} {key : String} {value : Toml}
    (spaces : ∀ c ∈ back, isSpace c = true) (bare : IsBare key.toList) (read : value? text = some value)
    (end' : IsRemark remark) (ends : EndsLine t rest) (d : Draft) :
    scanAssignment d (key.toList ++ back ++ '=' :: (text ++ remark) ++ t) =
      (d.assign [] key value).map fun d => (d, rest) := by
  have found : scanValue (2 * text.length + 2) 0 (skipSpaces text) = some (value, []) := by
    unfold value? at read
    split at read
    · rename_i value' e
      cases read
      exact e
    · cases read
  have name := scanKey_of_bare [] spaces bare (c := '=') (by decide) (by decide) (by decide)
    (text ++ (remark ++ t))
  have whole : key.toList ++ back ++ '=' :: (text ++ remark) ++ t =
      key.toList ++ (back ++ '=' :: (text ++ (remark ++ t))) := by simp
  have behind : ∀ fuel, 2 * text.length + 2 ≤ fuel →
      scanValue fuel 0 (skipSpaces (text ++ (remark ++ t))) = some (value, remark ++ t) := by
    intro fuel more
    rw [skipSpaces_append (goesOn_of_scanValue found).1]
    exact scanValue_append (end'.endsValue ends) more found
  rw [whole, scanAssignment, ← List.nil_append (key.toList ++ _), name]
  simp only [Option.bind_eq_bind, Option.bind_some, expect, if_true]
  rw [behind _ (by simp; omega)]
  cases assigned : d.assign [] key value with
  | none => simp [assigned]
  | some d => simp [assigned, lineEnd?_append end' ends]

theorem scanExpression_bracket (single : ∀ c ∈ s.head?, c ≠ '[') (d : Draft) :
    scanExpression d ('[' :: s) =
      (scanHeader [']'] s).bind fun (keys, rest) => (d.openTable keys).map fun d => (d, rest) := by
  unfold scanExpression
  split
  · rename_i e
    exact absurd rfl (single '[' (by rw [(List.cons.inj e).2]; rfl))
  · rename_i rest _ e
    rw [(List.cons.inj e).2]
    simp only [Option.bind_eq_bind, Option.pure_def, Option.map_eq_bind, Function.comp_def]
  · rename_i other
    exact absurd rfl (other s)

theorem scanExpression_of_ne {c : Char} (other : c ≠ '[') (s : List Char) (d : Draft) :
    scanExpression d (c :: s) = scanAssignment d (c :: s) := by
  unfold scanExpression
  split
  · rename_i e
    exact absurd (List.cons.inj e).1 other
  · rename_i e
    exact absurd (List.cons.inj e).1 other
  · rfl

/-- A line that is not blank is read by itself, and the next line comes behind it. -/
theorem scanExpression_of_written {line : List Char} {row : Row} (written : row.Written line)
    (ends : EndsLine t rest) (busy : row ≠ .blank) : ∃ c more, skipBlank (line ++ t) = c :: more ∧
      ∀ d, scanExpression d (c :: more) = (Draft.take d row).map fun d => (d, rest) := by
  cases written with
  | blank => exact absurd rfl busy
  | @header indent front back remark name spaces bare end' =>
    rw [List.append_assoc, List.forall_mem_append] at spaces
    refine ⟨'[', front ++ name.toList ++ back ++ ']' :: remark ++ t, ?_, fun d => ?_⟩
    · rw [List.append_assoc]
      exact skipBlank_of_spaces spaces.1 (by decide) (by decide) (by decide) (by decide) _
    · have single : ∀ c ∈ (front ++ name.toList ++ back ++ ']' :: remark ++ t).head?, c ≠ '[' := by
        rintro c mem rfl
        simp only [List.append_assoc] at mem
        have head := head?_of_spaces (List.forall_mem_append.mp spaces.2).1 (by decide) mem
        obtain ⟨d, more, e, first⟩ := bare.head (back ++ (']' :: remark ++ t))
        rw [e] at head
        exact ne_of_isBareKeyChar first (by decide) (Option.some.inj head)
      rw [scanExpression_bracket single, scanHeader_of_bare spaces.2 bare end' ends]
      rfl
  | @entry indent back text remark key value spaces bare read end' =>
    rw [List.forall_mem_append] at spaces
    have assignment := scanAssignment_of_bare spaces.2 bare read end' ends
    obtain ⟨c, more, e, first⟩ := bare.head (back ++ ('=' :: (text ++ remark) ++ t))
    refine ⟨c, more, ?_, fun d => ?_⟩
    · rw [List.append_assoc, List.append_assoc, List.append_assoc, e]
      exact skipBlank_of_spaces spaces.1 (not_isSpace_of_isBareKeyChar first)
        (ne_of_isBareKeyChar first (by decide)) (ne_of_isBareKeyChar first (by decide))
        (ne_of_isBareKeyChar first (by decide)) _
    · rw [Draft.take, ← assignment d, scanExpression_of_ne (ne_of_isBareKeyChar first (by decide)), ← e,
        List.append_assoc, List.append_assoc]

/-! ## Whole documents -/

theorem Row.Written.of_header {line : List Char} {name : String} (written : (Row.header name).Written line) :
    IsBare name.toList ∧ name.toList <:+: line := by
  cases written with
  | @header indent front back remark name spaces bare end' =>
    exact ⟨bare, indent ++ '[' :: front, back ++ ']' :: remark, by simp⟩

theorem Row.Written.of_entry {line : List Char} {key : String} {value : Toml}
    (written : (Row.entry key value).Written line) : IsBare key.toList ∧ key.toList <:+: line := by
  cases written with
  | @entry indent back text remark key value spaces bare read end' =>
    exact ⟨bare, indent, back ++ '=' :: (text ++ remark), by simp⟩

theorem Row.Written.ne_nil {line : List Char} {row : Row} (written : row.Written line) (busy : row ≠ .blank) :
    line ≠ [] := by
  cases written with
  | blank => exact absurd rfl busy
  | header => simp
  | entry => simp

theorem scanLines_succ (fuel : Nat) (d : Draft) (s : List Char) : scanLines (fuel + 1) d s =
    match skipBlank s with
    | [] => some d
    | s =>
      match scanExpression d s with
      | some (d, rest) => scanLines fuel d rest
      | none => none := rfl

theorem scanLines_eq {rows : List Row} (written : List.Forall₂ Row.Written (lines s) rows) {fuel : Nat}
    (enough : s.length < fuel) (d : Draft) : scanLines fuel d s = rows.foldlM Draft.take d := by
  induction rows generalizing s fuel d with
  | nil =>
    rcases lines_cases s with ⟨rfl, -⟩ | ⟨line, tail, rest, -, -, -, e⟩
    · obtain ⟨k, rfl⟩ : ∃ k, fuel = k + 1 := ⟨fuel - 1, by simp at enough; omega⟩
      rfl
    · rw [e] at written
      cases written
  | cons row rows ih =>
    rcases lines_cases s with ⟨rfl, e⟩ | ⟨line, tail, rest, whole, ne, ends, e⟩
    · rw [e] at written
      cases written
    · rw [e] at written
      obtain ⟨first, others⟩ := List.forall₂_cons.mp written
      obtain ⟨fuel, rfl⟩ : ∃ k, fuel = k + 1 := ⟨fuel - 1, by omega⟩
      have size : s.length = line.length + tail.length := by rw [whole, List.length_append]
      have short := ends.length_le
      rw [List.foldlM_cons]
      by_cases blank : row = .blank
      · subst blank
        have remark : IsRemark line := by
          cases first
          assumption
        calc scanLines (fuel + 1) d s = scanLines (fuel + 1) d rest := by
              rw [scanLines_succ, scanLines_succ, whole, skipBlank_of_remark remark ends]
          _ = rows.foldlM Draft.take d := ih others (by omega) d
      · obtain ⟨c, more, front, read⟩ := scanExpression_of_written first ends blank
        have room := List.length_pos_iff.mpr (first.ne_nil blank)
        rw [scanLines_succ, whole, front]
        simp only [read]
        cases d.take row with
        | none => rfl
        | some d => exact ih others (by omega) d

theorem Row.Written.head_ne {line : List Char} {row : Row} (written : row.Written line) :
    ∀ c ∈ line.head?, c ≠ '\ufeff' := by
  rintro c mem rfl
  cases written with
  | blank remark =>
    obtain ⟨more, rfl⟩ := List.head?_eq_some_iff.mp mem
    rw [IsRemark, skipSpaces_cons (by decide), skipComment_cons (by decide)] at remark
    cases remark
  | header spaces bare end' =>
    rw [List.append_assoc, List.forall_mem_append] at spaces
    cases head?_of_spaces spaces.1 (by decide) mem
  | entry spaces bare read end' =>
    rw [List.forall_mem_append] at spaces
    simp only [List.append_assoc] at mem
    have head := head?_of_spaces spaces.1 (by decide) mem
    obtain ⟨c, more, e, first⟩ := bare.head _
    rw [e] at head
    exact ne_of_isBareKeyChar first (by decide) (Option.some.inj head)

theorem read_eq {text : String} {rows : List Row}
    (written : List.Forall₂ Row.Written (lines text.toList) rows) :
    read text = ((rows.foldlM Draft.take Draft.begin).bind Draft.close).map entriesToToml := by
  have start : ∀ rest, text.toList ≠ '\ufeff' :: rest := by
    intro rest e
    rcases lines_cases text.toList with ⟨none, -⟩ | ⟨line, tail, rest', whole, -, ends, e'⟩
    · rw [none] at e
      cases e
    · rw [e'] at written
      cases written with
      | cons first _ =>
        rw [whole] at e
        cases line with
        | nil =>
          rcases ends with ⟨rfl, -⟩ | rfl | rfl
          all_goals cases e
        | cons c line => exact first.head_ne c rfl (List.cons.inj e).1
  unfold read
  split
  · rename_i rest e
    exact absurd e (start rest)
  · simp only [Option.bind_eq_bind, scanLines_eq written (Nat.lt_succ_self _)]
    cases rows.foldlM Draft.take Draft.begin with
    | none => rfl
    | some d =>
      simp only [Option.bind_some]
      cases d.close <;> rfl

/-! ## Tables of bare keys -/

theorem entriesToToml_append (es fs : Entries) :
    entriesToToml (es ++ fs) = entriesToToml es ++ entriesToToml fs := by
  induction es with
  | nil => rfl
  | cons e es ih =>
    obtain ⟨key, item⟩ := e
    rw [List.cons_append, entriesToToml, entriesToToml, ih, List.cons_append]

theorem Entries.put_of_find_eq_none {key : String} {es : Entries} (fresh : es.find key = none)
    (item : Item) : es.put key item = es ++ [(key, item)] := by
  induction es with
  | nil => rfl
  | cons e es ih =>
    obtain ⟨k, i⟩ := e
    by_cases same : k = key
    · simp [Entries.find, same] at fresh
    · have later : Entries.find key es = none := by simpa [Entries.find, same] using fresh
      rw [Entries.put, if_neg same, ih later, List.cons_append]

theorem Entries.mem_of_find {key : String} {es : Entries} {item : Item} (h : es.find key = some item) :
    (key, item) ∈ es := by
  obtain ⟨⟨k, i⟩, found, rfl⟩ := Option.map_eq_some_iff.mp h
  have same : k = key := by simpa using List.find?_some found
  exact same ▸ List.mem_of_find?_eq_some found

namespace Draft

def table? (d : Draft) : Option String := d.keys.head?

/-- The finished document, if no more lines come. -/
def entries (d : Draft) : List (String × Toml) :=
  match d.table? with
  | none => entriesToToml d.current
  | some name => entriesToToml d.root ++ [(name, .table (entriesToToml d.current))]

theorem entries_of_top {d : Draft} (top : d.table? = none) : d.entries = entriesToToml d.current := by
  rw [entries, top]

theorem entries_of_table {d : Draft} {name : String} (top : d.table? = some name) :
    d.entries = entriesToToml d.root ++ [(name, .table (entriesToToml d.current))] := by
  rw [entries, top]

/-- Only single keys have been used: the open table is new, and no table was made on the way to another. -/
structure Flat (d : Draft) : Prop where
  single : d.isArray = false
  fresh : d.keys = [] ∨ ∃ name, d.keys = [name] ∧ d.root.find name = none
  noneAbove : ∀ e ∈ d.root ++ d.current, ∀ sub, e.2 ≠ .table .above sub

theorem flat_begin : begin.Flat := ⟨rfl, .inl rfl, by simp [begin]⟩

variable {d d' : Draft}

theorem Flat.close (flat : d.Flat) : ∃ es : Entries, d.close = some es ∧ entriesToToml es = d.entries ∧
    ∀ e ∈ es, ∀ sub, e.2 ≠ .table .above sub := by
  rcases flat.fresh with top | ⟨name, top, fresh⟩
  · refine ⟨d.current, by simp [Draft.close, top], by simp [entries, table?, top], ?_⟩
    exact fun e mem => flat.noneAbove e (List.mem_append_right _ mem)
  · refine ⟨d.root ++ [(name, .table .header d.current)], ?_, ?_, ?_⟩
    · simp [Draft.close, top, flat.single, Entries.change, Entries.put_of_find_eq_none fresh]
    · simp [entries, table?, top, entriesToToml_append, entriesToToml, Item.toToml]
    · intro e mem sub
      rcases List.mem_append.mp mem with mem | mem
      · exact flat.noneAbove e (List.mem_append_left _ mem) sub
      · rw [List.mem_singleton.mp mem]
        simp

/-- A header opens a new table below all others. -/
theorem Flat.openTable (flat : d.Flat) {name : String} (h : d.openTable [name] = some d') :
    d'.Flat ∧ d'.table? = some name ∧ d'.entries = d.entries ++ [(name, .table [])] := by
  obtain ⟨root, close, whole, noneAbove⟩ := flat.close
  simp only [Draft.openTable, close, Option.bind_eq_bind, Option.bind_some, List.getLast?_singleton,
    List.dropLast_singleton, Entries.reach, Entries.change, Option.pure_def] at h
  split at h
  · rename_i fresh
    cases h
    exact ⟨⟨rfl, .inr ⟨name, rfl, fresh⟩, by simpa using noneAbove⟩, rfl,
      by simp [entries, table?, whole, entriesToToml]⟩
  · rename_i sub found
    exact absurd rfl (noneAbove _ (Entries.mem_of_find found) sub)
  · cases h

/-- An entry goes to the end of the open table. -/
theorem Flat.assign (flat : d.Flat) {key : String} {value : Toml} (h : d.assign [] key value = some d') :
    d'.Flat ∧ d' = { d with current := d.current ++ [(key, .value value)] } := by
  obtain ⟨es, put, rfl⟩ := Option.map_eq_some_iff.mp h
  rw [Entries.assign, if_pos (.inl rfl)] at put
  split at put
  · cases put
  · rename_i fresh
    cases put
    rw [Entries.put_of_find_eq_none fresh]
    refine ⟨⟨flat.single, flat.fresh, ?_⟩, rfl⟩
    intro e mem sub
    simp only [← List.append_assoc] at mem
    rcases List.mem_append.mp mem with mem | mem
    · exact flat.noneAbove e mem sub
    · rw [List.mem_singleton.mp mem]
      simp

end Draft

end
end Apportion.Toml
