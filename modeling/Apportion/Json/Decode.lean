import Apportion.Json

/-!
Reading records out of JSON values. A record is an object, in which unknown keys mean nothing and a
known key must not be repeated, or an array of the fields in their order, from which fields at the
end may be missing. `null` stands only for an optional value that is absent.
-/
namespace Apportion.Json

abbrev Decoder (α : Type) := Json → Option α

def decodeString : Decoder String
  | .string text => text
  | _ => none

def decodeBool : Decoder Bool
  | .bool b => some b
  | _ => none

/-- A natural number below a limit, written as digits alone. -/
def decodeNat (limit : Nat) : Decoder Nat
  | .number n => n.toNat?.filter (· < limit)
  | _ => none

def decodeOptional {α : Type} (decode : Decoder α) : Decoder (Option α)
  | .null => some none
  | j => (decode j).map some

def decodeList {α : Type} (decode : Decoder α) : Decoder (List α)
  | .array items => items.mapM decode
  | _ => none

/-- The field's value, or the default if the record does not have the field. -/
def decodeField {α : Type} (decode : Decoder α) (default : Option α) : Option Json → Option α
  | some j => decode j
  | none => default

/-! ## Records -/

/-- The value under a key, where at most one field may have it. -/
def uniqueField (fields : List (Option String × Json)) (key : String) : Option (Option Json) :=
  match fields.filter fun (k, _) => k == some key with
  | [] => some none
  | [(_, value)] => some (some value)
  | _ => none

/-- The values of the named fields, in the order of the names. -/
def record (names : List String) : Json → Option (List (Option Json))
  | .object fields =>
    if fields.all fun (k, _) => k.isSome then names.mapM (uniqueField fields) else none
  | .array items =>
    if items.length ≤ names.length then
      some (items.map some ++ List.replicate (names.length - items.length) none)
    else none
  | _ => none

mutual

/-- The value with only the last of several fields under one key, in each object inside it. -/
def keepLast : Json → Json
  | .array items => .array (keepLastItems items)
  | .object fields => .object (keepLastFields fields)
  | j => j

def keepLastItems : List Json → List Json
  | [] => []
  | item :: items => keepLast item :: keepLastItems items

def keepLastFields : List (Option String × Json) → List (Option String × Json)
  | [] => []
  | (key, value) :: fields =>
    let rest := keepLastFields fields
    if rest.any fun (k, _) => k == key then rest else (key, keepLast value) :: rest

end

def field? (key : String) : Json → Option Json
  | .object fields => (fields.find? fun (k, _) => k == some key).map (·.2)
  | _ => none

end Apportion.Json
