import Apportion.PositionMap.Document
import Apportion.Proofs.Json.Compact

/-!
Documents as they come back from their text. Every document is read again from the text that it is
written as (`parse_render`), with the same absent fields and entries.
-/
namespace Apportion.PositionMap
open Json

theorem exact_optionalField {α : Type} {key : String} {f : α → Json} {a : Option α}
    (exact : ∀ a, Exact (f a)) : ∀ field ∈ optionalField key f a, Exact field.2 := by
  cases a with
  | none => exact fun _ none => absurd none List.not_mem_nil
  | some a =>
    intro field h
    rw [List.mem_singleton.mp h]
    exact exact a

theorem exact_textsToJson (texts : List (Option String)) : Exact (textsToJson texts) := by
  refine .array fun j hj => ?_
  obtain ⟨text, -, rfl⟩ := List.mem_map.mp hj
  cases text with
  | none => exact .null
  | some text => exact .string text

theorem exact_toJson (m : PositionMap) : Exact m.toJson := by
  refine .object fun field h => ?_
  simp only [List.mem_append, List.mem_cons, List.not_mem_nil, or_false] at h
  rcases h with ((((rfl | file) | root) | rfl) | contents) | rfl | rfl
  · exact .number 3
  · exact exact_optionalField .string field file
  · exact exact_optionalField .string field root
  · exact exact_textsToJson m.sources
  · exact exact_optionalField exact_textsToJson field contents
  · refine .array fun j hj => ?_
    obtain ⟨name, -, rfl⟩ := List.mem_map.mp hj
    exact .string name
  · exact .string m.mappings

/-- Items that are each read as what they were made of. -/
theorem decodeList_map {α : Type} {decode : Decoder α} {f : α → Json} (each : ∀ a, decode (f a) = some a)
    (as : List α) : decodeList decode (.array (as.map f)) = some as := by
  rw [decodeList]
  induction as with
  | nil => rfl
  | cons a as ih =>
    rw [List.map_cons, List.mapM_cons, each, ih]
    rfl

theorem decodeList_textsToJson (texts : List (Option String)) :
    decodeList (decodeOptional decodeString) (textsToJson texts) = some texts :=
  decodeList_map (fun text => by cases text <;> rfl) texts

/-- An optional value that is left out if it is absent. -/
theorem decodeField_optional {α : Type} {decode : Decoder α} {f : α → Json}
    (each : ∀ a, decode (f a) = some a) (present : ∀ a, f a ≠ .null) (a : Option α) :
    decodeField (decodeOptional decode) (some none) (a.map f) = some a := by
  cases a with
  | none => rfl
  | some a =>
    have one : decodeOptional decode (f a) = (decode (f a)).map some := by
      unfold decodeOptional
      split
      · rename_i null
        exact absurd null (present a)
      · rfl
    rw [Option.map_some, decodeField, one, each]
    rfl

/-- A document is made of the values of its fields, the absent ones left out. -/
theorem fromJson_toJson (m : PositionMap) : fromJson m.toJson = some (3, m) := by
  obtain ⟨file, root, sources, contents, names, mappings⟩ := m
  have fields : record fieldNames (toJson ⟨file, root, sources, contents, names, mappings⟩) =
      some [some (ofNat 3), file.map ofString, root.map ofString, some (textsToJson sources),
        contents.map textsToJson, some (.array (names.map ofString)), some (ofString mappings)] := by
    cases file <;> cases root <;> cases contents <;> rfl
  have text (s : String) : decodeString (ofString s) = some s := rfl
  have version : decodeNat 0x100000000 (ofNat 3) = some 3 := rfl
  rw [fromJson, fields]
  simp only [decodeField_optional text nofun, decodeField_optional decodeList_textsToJson nofun]
  simp only [decodeField, version, decodeList_textsToJson, decodeList_map text, text, bind,
    Option.bind_some, pure]

/-- A document is read from its text as it was written, whatever its texts hold and whichever of its
optional fields and entries are absent. -/
theorem parse_render (m : PositionMap) : parse m.render = .ok m := by
  rw [parse, render, read_compact m.exact_toJson, Option.bind_some, fromJson_toJson]
  rfl

end Apportion.PositionMap
