import Apportion.Proofs.Toml.Document
import Apportion.Proofs.Workspace.Calls
import Apportion.Settings.Load
import Mathlib

/-!
Where warnings about unknown keys lead. A file of headers and of entries on one line, all keys bare, gives
one warning for each key of its rows that means nothing, in their order (`unknown_of_rows`). The line that
a warning names is the first that shows the key anywhere: it is the line of the key exactly if no line
above shows the key's text, be it in another key, in a value or in a comment (`warned_line_iff`).
-/
namespace Apportion
open Toml Text

/-! ## Lines that show a text -/

namespace KeyWarning

theorem occursIn_iff {needle s : List Char} : occursIn needle s = true ↔ needle <:+: s := by
  induction s with
  | nil => rw [occursIn, List.isEmpty_iff, List.infix_nil]
  | cons c s ih =>
    rw [occursIn, Bool.or_eq_true, List.isPrefixOf_iff_prefix, ih, List.infix_cons_iff]

/-- The line with this number, counted from zero, shows a text. -/
def Shows (content text : String) (n : Nat) : Prop :=
  ∃ line, (lines content.toList)[n]? = some line ∧ text.toList <:+: line

/-- The line that is named is the first that shows the text. -/
theorem lineOf_eq_some_iff {content text : String} {n : Nat} :
    lineOf content text = some (n + 1) ↔ Shows content text n ∧ ∀ i < n, ¬ Shows content text i := by
  have shows : ∀ i (h : i < (lines content.toList).length),
      occursIn text.toList (lines content.toList)[i] = true ↔ Shows content text i := by
    intro i h
    rw [occursIn_iff]
    refine ⟨fun found => ⟨_, List.getElem?_eq_getElem h, found⟩, ?_⟩
    rintro ⟨line, e, found⟩
    rw [List.getElem?_eq_getElem h] at e
    exact Option.some.inj e ▸ found
  simp only [lineOf, Option.map_eq_some_iff, Nat.add_right_cancel_iff, exists_eq_right,
    List.findIdx?_eq_some_iff_getElem]
  constructor
  · rintro ⟨h, found, first⟩
    exact ⟨(shows n h).mp found, fun i less some => first i less ((shows i (by omega)).mpr some)⟩
  · rintro ⟨found, first⟩
    have h : n < (lines content.toList).length := by
      obtain ⟨line, e, -⟩ := found
      exact (List.getElem?_eq_some_iff.mp e).1
    exact ⟨h, (shows n h).mpr found, fun i less some => first i less ((shows i (by omega)).mp some)⟩

theorem lastPart_eq_self {key : String} (whole : '.' ∉ key.toList) : lastPart key = key := by
  rw [lastPart, split_eq_singleton whole]
  exact String.ofList_toList

end KeyWarning

/-! ## Keys that mean nothing -/

namespace Settings

def fields? : String → Option (List String)
  | "emit" => some ["out_dir", "report"]
  | "packages" => some ["manifest_name", "export_extension", "builtin_prefix", "code_extensions",
      "entry_candidates"]
  | "resolve" => some ["main_fields"]
  | "apply" => some ["jobs"]
  | "ignore" => some ["enabled", "template", "file"]
  | _ => none

/-- The keys that mean nothing of a value that stands for a section with these fields. -/
def unknownFields (names : List String) (v : Toml) : List String :=
  ((sectionFields names v).map (·.2)).getD []

/-- The keys that mean nothing of one entry of a document: its own, or those in its section. -/
def unknownOf (key : String) (v : Toml) : List String :=
  match fields? key with
  | none => [key]
  | some names => unknownFields names v

/-- However a section's fields are read, its unknown keys are handed on as they are. -/
theorem unknown_of_section {α : Type} {names : List String} {v : Toml}
    {read : List (Option Toml) × List String → Option (α × List String)}
    (keeps : ∀ fields unknown part unknown',
      read (fields, unknown) = some (part, unknown') → unknown' = unknown)
    {part : α} {unknown : List String} (h : (sectionFields names v).bind read = some (part, unknown)) :
    unknown = unknownFields names v := by
  obtain ⟨⟨fields, unknown'⟩, found, h⟩ := Option.bind_eq_some_iff.mp h
  rw [keeps _ _ _ _ h, unknownFields, found]
  rfl

theorem unknown_of_readEntry {s s' : Settings} {key : String} {v : Toml} {unknown : List String}
    (h : s.readEntry key v = some (s', unknown)) : unknown = unknownOf key v := by
  unfold readEntry at h
  split at h
  case h_6 emit packages resolve apply ignore =>
    cases h
    rw [unknownOf, fields?]
    all_goals assumption
  all_goals
    obtain ⟨⟨part, unknown'⟩, read, e⟩ := Option.map_eq_some_iff.mp h
    cases e
    refine unknown_of_section ?_ read
    intro fields unknown part unknown' h
    split at h
    · rename_i e
      simp only [Option.bind_eq_bind, Option.bind_eq_some_iff, Option.pure_def, Option.some.injEq,
        Prod.mk.injEq] at h e
      grind
    · cases h

/-- The keys that mean nothing of all entries of a document. -/
def unknownIn (entries : List (String × Toml)) : List String := entries.flatMap fun e => unknownOf e.1 e.2

theorem unknown_of_readEntries {s s' : Settings} {entries : List (String × Toml)} {unknown : List String}
    (h : s.readEntries entries = some (s', unknown)) : unknown = unknownIn entries := by
  induction entries generalizing s unknown with
  | nil =>
    cases h
    rfl
  | cons e entries ih =>
    obtain ⟨key, v⟩ := e
    obtain ⟨⟨s₁, here⟩, first, h⟩ := Option.bind_eq_some_iff.mp h
    obtain ⟨⟨s₂, later⟩, others, h⟩ := Option.bind_eq_some_iff.mp h
    cases h
    rw [unknownIn, List.flatMap_cons, unknown_of_readEntry first, ih others, unknownIn]

theorem unknownOf_table_concat (name key : String) (value : Toml) (entries : List (String × Toml)) :
    unknownOf name (.table (entries ++ [(key, value)])) = unknownOf name (.table entries) ++
      match fields? name with
      | none => []
      | some names => if names.contains key then [] else [key] := by
  unfold unknownOf
  cases fields? name with
  | none => rfl
  | some names =>
    simp only [unknownFields, sectionFields, Option.map_some, Option.getD_some, List.map_append,
      List.filter_append, List.map_singleton]
    rw [List.filter_singleton]
    cases names.contains key <;> rfl

theorem unknown_of_parse {text : String} {s : Settings} {unknown : List String}
    (h : parse text = some (s, unknown)) :
    ∃ entries, Toml.read text = some entries ∧ unknown = unknownIn entries := by
  obtain ⟨entries, read, h⟩ := Option.bind_eq_some_iff.mp h
  exact ⟨entries, read, unknown_of_readEntries h⟩

end Settings

/-! ## Rows and their keys -/

/-- A key that means nothing, with the number of its line, counted from zero. It may stand inside of the
value on that line. -/
structure UnknownKey where
  key : String
  line : Nat
  inside : Bool
  deriving DecidableEq, Repr

namespace Toml
open Settings

def Row.table? (table : Option String) : Row → Option String
  | .header name => some name
  | _ => table

def Row.unknown (table : Option String) (line : Nat) : Row → List UnknownKey
  | .blank => []
  | .header name => if (fields? name).isSome then [] else [⟨name, line, false⟩]
  | .entry key value =>
    match table with
    | none =>
      match fields? key with
      | none => [⟨key, line, false⟩]
      | some names => (unknownFields names value).map (⟨·, line, true⟩)
    | some table =>
      match fields? table with
      | none => []
      | some names => if names.contains key then [] else [⟨key, line, false⟩]

def unknownKeys (table : Option String) (line : Nat) : List Row → List UnknownKey
  | [] => []
  | row :: rows => row.unknown table line ++ unknownKeys (row.table? table) (line + 1) rows

namespace Draft
variable {d d' : Draft}

theorem unknownIn_concat (entries : List (String × Toml)) (key : String) (v : Toml) :
    unknownIn (entries ++ [(key, v)]) = unknownIn entries ++ unknownOf key v := by
  rw [unknownIn, List.flatMap_append, List.flatMap_singleton, unknownIn]

/-- An entry adds its keys, whether it goes above all tables or into the open one. -/
theorem unknownIn_assign (d : Draft) (key : String) (value : Toml) (line : Nat) :
    unknownIn { d with current := d.current ++ [(key, .value value)] : Draft }.entries =
      unknownIn d.entries ++ ((Row.entry key value).unknown d.table? line).map (·.key) := by
  cases top : d.table? with
  | none =>
    have top' : Draft.table? { d with current := d.current ++ [(key, .value value)] } = none := top
    rw [entries_of_top top, entries_of_top top', entriesToToml_append]
    simp only [entriesToToml, Item.toToml, unknownIn_concat, Row.unknown, unknownOf]
    cases fields? key with
    | none => rfl
    | some names => simp [Function.comp_def]
  | some name =>
    have top' : Draft.table? { d with current := d.current ++ [(key, .value value)] } = some name := top
    rw [entries_of_table top, entries_of_table top', entriesToToml_append]
    simp only [entriesToToml, Item.toToml, unknownIn_concat, unknownOf_table_concat, Row.unknown,
      List.append_assoc]
    congr 2
    cases fields? name with
    | none => rfl
    | some names =>
      simp only
      split <;> rfl

/-- One more line adds its own keys to those that mean nothing. -/
theorem Flat.take (flat : d.Flat) {row : Row} (h : d.take row = some d') (line : Nat) :
    d'.Flat ∧ d'.table? = row.table? d.table? ∧
      unknownIn d'.entries = unknownIn d.entries ++ (row.unknown d.table? line).map (·.key) := by
  cases row with
  | blank =>
    cases h
    exact ⟨flat, rfl, by simp [Row.unknown]⟩
  | header name =>
    obtain ⟨flat', table, entries⟩ := flat.openTable h
    refine ⟨flat', table, ?_⟩
    rw [entries, unknownIn_concat, Row.unknown, unknownOf]
    cases fields? name <;> rfl
  | entry key value =>
    obtain ⟨flat', rfl⟩ := flat.assign h
    exact ⟨flat', rfl, unknownIn_assign d key value line⟩

/-- The keys of a document that mean nothing are those of its rows, in their order. -/
theorem Flat.foldlM_take (flat : d.Flat) {rows : List Row} (h : rows.foldlM Draft.take d = some d')
    (line : Nat) : d'.Flat ∧
      unknownIn d'.entries = unknownIn d.entries ++ (unknownKeys d.table? line rows).map (·.key) := by
  induction rows generalizing d line with
  | nil =>
    cases h
    exact ⟨flat, by simp [unknownKeys]⟩
  | cons row rows ih =>
    rw [List.foldlM_cons] at h
    obtain ⟨d₁, first, others⟩ := Option.bind_eq_some_iff.mp h
    obtain ⟨flat₁, table, here⟩ := flat.take first line
    obtain ⟨flat', later⟩ := ih flat₁ others (line + 1)
    refine ⟨flat', ?_⟩
    rw [later, here, table, unknownKeys, List.map_append, List.append_assoc]

end Draft

/-- A key that means nothing has the number of its row, and one that stands on its own is the row's. -/
theorem of_mem_unknown {table : Option String} {line : Nat} {row : Row} {k : UnknownKey}
    (mem : k ∈ row.unknown table line) : k.line = line ∧
      (k.inside = false → row = .header k.key ∨ ∃ value, row = .entry k.key value) := by
  unfold Row.unknown at mem
  split at mem
  · cases mem
  · split at mem
    · cases mem
    · rw [List.mem_singleton.mp mem]
      exact ⟨rfl, fun _ => .inl rfl⟩
  · split at mem
    · split at mem
      · rw [List.mem_singleton.mp mem]
        exact ⟨rfl, fun _ => .inr ⟨_, rfl⟩⟩
      · obtain ⟨name, -, rfl⟩ := List.mem_map.mp mem
        exact ⟨rfl, fun outside => by cases outside⟩
    · split at mem
      · cases mem
      · split at mem
        · cases mem
        · rw [List.mem_singleton.mp mem]
          exact ⟨rfl, fun _ => .inr ⟨_, rfl⟩⟩

theorem exists_row_of_mem_unknownKeys {table : Option String} {line : Nat} {rows : List Row} {k : UnknownKey}
    (mem : k ∈ unknownKeys table line rows) : ∃ i row, rows[i]? = some row ∧ k.line = line + i ∧
      (k.inside = false → row = .header k.key ∨ ∃ value, row = .entry k.key value) := by
  induction rows generalizing table line with
  | nil => cases mem
  | cons row rows ih =>
    rcases List.mem_append.mp mem with here | later
    · obtain ⟨number, own⟩ := of_mem_unknown here
      exact ⟨0, row, rfl, number, own⟩
    · obtain ⟨i, row', e, number, own⟩ := ih later
      exact ⟨i + 1, row', e, by omega, own⟩

end Toml

namespace Settings
open KeyWarning

theorem unknown_of_rows {text : String} {rows : List Row} {s : Settings} {unknown : List String}
    (written : List.Forall₂ Row.Written (lines text.toList) rows) (h : parse text = some (s, unknown)) :
    unknown = (unknownKeys none 0 rows).map (·.key) := by
  obtain ⟨entries, read, rfl⟩ := unknown_of_parse h
  rw [read_eq written, Option.map_eq_some_iff] at read
  obtain ⟨es, read, rfl⟩ := read
  obtain ⟨d, taken, closed⟩ := Option.bind_eq_some_iff.mp read
  obtain ⟨flat, all⟩ := Draft.flat_begin.foldlM_take taken 0
  obtain ⟨es', closed', whole, -⟩ := flat.close
  obtain rfl : es' = es := Option.some.inj (closed'.symm.trans closed)
  rw [whole, all]
  rfl

/-- A key of a row is one part, and its own line shows it. -/
theorem shows_of_mem_unknownKeys {text : String} {rows : List Row}
    (written : List.Forall₂ Row.Written (lines text.toList) rows) {k : UnknownKey}
    (mem : k ∈ unknownKeys none 0 rows) (outside : k.inside = false) :
    lastPart k.key = k.key ∧ Shows text k.key k.line := by
  obtain ⟨i, row, e, number, own⟩ := exists_row_of_mem_unknownKeys mem
  obtain ⟨line, there, row'⟩ : ∃ line, (lines text.toList)[i]? = some line ∧ row.Written line := by
    obtain ⟨h, rfl⟩ := List.getElem?_eq_some_iff.mp e
    have h' : i < (lines text.toList).length := written.length_eq ▸ h
    exact ⟨_, List.getElem?_eq_getElem h', (List.forall₂_iff_get.mp written).2 i h' h⟩
  have key : IsBare k.key.toList ∧ k.key.toList <:+: line := by
    rcases own outside with rfl | ⟨value, rfl⟩
    · exact row'.of_header
    · exact row'.of_entry
  have whole : '.' ∉ k.key.toList := fun dot => by cases key.1.2 _ dot
  refine ⟨lastPart_eq_self whole, line, ?_, key.2⟩
  rw [number, Nat.zero_add, there]

/-- The warnings are those of the rows' unknown keys, and each names the line of its key exactly if no line
above shows the key's text. A key inside of a value can be written so that its own line does not show it. -/
theorem warned_line_iff {file : Path} {memory : Memory} {text : String} {rows : List Row}
    {settings : Settings} {warnings : List KeyWarning}
    (stored : (Workspace.read (m := StateM Memory) file memory).1 = .ok text)
    (written : List.Forall₂ Row.Written (lines text.toList) rows)
    (accepted : (load (m := StateM Memory) file memory).1 = .ok (settings, warnings)) :
    List.Forall₂ (fun k w => w.key = lastPart k.key ∧
      (w.line = some (k.line + 1) ↔
        (k.inside = true → Shows text w.key k.line) ∧ ∀ i < k.line, ¬ Shows text w.key i))
      (unknownKeys none 0 rows) warnings := by
  have parsed : ∃ unknown, parse text = some (settings, unknown) ∧
      warnings = unknown.map (ofKey file text) := by
    simp only [load, Memory.run_bind, stored] at accepted
    cases read : parse text with
    | none =>
      simp only [read] at accepted
      cases accepted
    | some found =>
      obtain ⟨settings', unknown⟩ := found
      simp only [read] at accepted
      cases accepted
      exact ⟨unknown, rfl, rfl⟩
  obtain ⟨unknown, parsed, rfl⟩ := parsed
  rw [unknown_of_rows written parsed, List.map_map, List.forall₂_map_right_iff, List.forall₂_same]
  intro k mem
  refine ⟨rfl, lineOf_eq_some_iff.trans ?_⟩
  cases inside : k.inside with
  | true => simp [ofKey]
  | false =>
    obtain ⟨whole, own⟩ := shows_of_mem_unknownKeys written mem inside
    simp [ofKey, whole, own]

def memoryOf (text : String) : Memory := .ofTree ⟨[([fileName], .file text)]⟩

theorem read_memoryOf (text : String) :
    (Workspace.read (m := StateM Memory) ⟨fileName⟩ (memoryOf text)).1 = .ok text := by
  have place : Path.place ⟨fileName⟩ = [fileName] := by decide +kernel
  change Memory.readAt (memoryOf text).tree ⟨fileName⟩ = _
  rw [Memory.readAt, place]
  rfl

/-- An unknown key inside of a value, one that a value above shows, and an unknown table. -/
def mixedText : String :=
  "apply = \x7b jobs = 2, jobz = 3 \x7d\r\n\n[emit] # output\n  out_dir = \"typo\"\ntypo = 1\n[paths]\nlib = []"

def mixedRows : List Row :=
  [.entry "apply" (.table [("jobs", .integer 2), ("jobz", .integer 3)]), .blank, .header "emit",
    .entry "out_dir" (.string "typo"), .entry "typo" (.integer 1), .header "paths",
    .entry "lib" (.array [])]

theorem written_mixed : List.Forall₂ Row.Written (lines mixedText.toList) mixedRows := by
  have split : lines mixedText.toList = [
      [] ++ "apply".toList ++ [' '] ++ '=' :: (" \x7b jobs = 2, jobz = 3 \x7d".toList ++ []),
      [],
      [] ++ '[' :: ([] ++ "emit".toList ++ [] ++ ']' :: " # output".toList),
      [' ', ' '] ++ "out_dir".toList ++ [' '] ++ '=' :: (" \"typo\"".toList ++ []),
      [] ++ "typo".toList ++ [' '] ++ '=' :: (" 1".toList ++ []),
      [] ++ '[' :: ([] ++ "paths".toList ++ [] ++ ']' :: []),
      [] ++ "lib".toList ++ [' '] ++ '=' :: (" []".toList ++ [])] := by decide +kernel
  rw [split]
  have none : ∀ c ∈ ([] : List Char), isSpace c = true := by simp
  have one : ∀ c ∈ [' '], isSpace c = true := List.all_eq_true.mp (by decide)
  have three : ∀ c ∈ [' ', ' ', ' '], isSpace c = true := List.all_eq_true.mp (by decide)
  refine .cons (.entry one (by decide) ?_ rfl) (.cons (.blank rfl) (.cons (.header none (by decide) (by decide))
    (.cons (.entry three (by decide) ?_ rfl) (.cons (.entry one (by decide) ?_ rfl)
      (.cons (.header none (by decide) rfl) (.cons (.entry one (by decide) ?_ rfl) .nil))))))
  all_goals cbv

/-- The second warning names the line of a value, the others name those of their keys. -/
theorem warned_line_iff_mixed : ∃ (settings : Settings) (warnings : List KeyWarning),
    (Workspace.read (m := StateM Memory) ⟨fileName⟩ (memoryOf mixedText)).1 = .ok mixedText ∧
    List.Forall₂ Row.Written (lines mixedText.toList) mixedRows ∧
    (load (m := StateM Memory) ⟨fileName⟩ (memoryOf mixedText)).1 = .ok (settings, warnings) ∧
    unknownKeys none 0 mixedRows = [⟨"jobz", 0, true⟩, ⟨"typo", 4, false⟩, ⟨"paths", 5, false⟩] ∧
    warnings.map (fun w => (w.key, w.line)) = [("jobz", some 1), ("typo", some 4), ("paths", some 6)] ∧
    List.Forall₂ (fun k w => w.key = lastPart k.key ∧
      (w.line = some (k.line + 1) ↔
        (k.inside = true → Shows mixedText w.key k.line) ∧ ∀ i < k.line, ¬ Shows mixedText w.key i))
      (unknownKeys none 0 mixedRows) warnings := by
  have stored := read_memoryOf mixedText
  have named : (load (m := StateM Memory) ⟨fileName⟩ (memoryOf mixedText)).1.toOption.map
      (fun found => found.2.map fun w => (w.key, w.line)) =
        some [("jobz", some 1), ("typo", some 4), ("paths", some 6)] := by decide +kernel
  cases accepted : (load (m := StateM Memory) ⟨fileName⟩ (memoryOf mixedText)).1 with
  | error e =>
    rw [accepted] at named
    cases named
  | ok found =>
    rw [accepted] at named
    exact ⟨found.1, found.2, stored, written_mixed, rfl, by decide +kernel, Option.some.inj named,
      warned_line_iff stored written_mixed accepted⟩

/-- The key is on the third line, and its warning names the second, where a value shows the same text. -/
theorem warned_line_of_value :
    let text := "[emit]\nout_dir = \"typo\"\ntypo = 1\n"
    let rows : List Row := [.header "emit", .entry "out_dir" (.string "typo"), .entry "typo" (.integer 1)]
    List.Forall₂ Row.Written (lines text.toList) rows ∧
      unknownKeys none 0 rows = [⟨"typo", 2, false⟩] ∧
      ∃ settings w, (load (m := StateM Memory) ⟨fileName⟩ (memoryOf text)).1 = .ok (settings, [w]) ∧
        w.key = "typo" ∧ w.line = some 2 := by
  intro text rows
  have split : lines text.toList = [
      [] ++ '[' :: ([] ++ "emit".toList ++ [] ++ ']' :: []),
      [] ++ "out_dir".toList ++ [' '] ++ '=' :: (" \"typo\"".toList ++ []),
      [] ++ "typo".toList ++ [' '] ++ '=' :: (" 1".toList ++ [])] := by decide +kernel
  have named : (load (m := StateM Memory) ⟨fileName⟩ (memoryOf text)).1.toOption.map
      (fun found => found.2.map fun w => (w.key, w.line)) = some [("typo", some 2)] := by decide +kernel
  refine ⟨?_, by decide +kernel, ?_⟩
  · rw [split]
    have none : ∀ c ∈ ([] : List Char), isSpace c = true := by simp
    have one : ∀ c ∈ [' '], isSpace c = true := List.all_eq_true.mp (by decide)
    refine .cons (.header none (by decide) rfl) (.cons (.entry one (by decide) ?_ rfl)
      (.cons (.entry one (by decide) ?_ rfl) .nil))
    all_goals cbv
  · cases accepted : (load (m := StateM Memory) ⟨fileName⟩ (memoryOf text)).1 with
    | error e =>
      rw [accepted] at named
      cases named
    | ok found =>
      rw [accepted] at named
      obtain ⟨settings, warnings⟩ := found
      obtain ⟨w, rfl, e⟩ := List.map_eq_singleton_iff.mp (Option.some.inj named)
      obtain ⟨key, line⟩ := Prod.mk.inj e
      exact ⟨settings, w, rfl, key, line⟩

end Settings
end Apportion
