import Apportion.Toml

/-!
Building tables. A table is opened once by its header, or grows through dotted keys, but not both; a
header may still open a table that so far only stood above other headers. Arrays of tables grow by
one table for each header of theirs.
-/
namespace Apportion.Toml

/-- How a table came to be. -/
inductive Birth
  /-- By a header of its own. -/
  | header
  /-- By headers of tables below it. -/
  | above
  /-- By dotted keys. -/
  | dotted
  deriving DecidableEq, Repr

/-- What stands under a key while tables grow. -/
inductive Item
  | value (v : Toml)
  | table (birth : Birth) (entries : List (String × Item))
  | tables (finished : List (List (String × Item)))

abbrev Entries := List (String × Item)

namespace Entries

def find (key : String) (es : Entries) : Option Item := (es.find? fun (k, _) => k == key).map (·.2)

/-- The entries with another item under a key, in its old place or at the end. -/
def put (key : String) (item : Item) : Entries → Entries
  | [] => [(key, item)]
  | (k, i) :: rest => if k = key then (key, item) :: rest else (k, i) :: put key item rest

def erase (key : String) (es : Entries) : Entries := es.filter fun (k, _) => k != key

/-- A change of the last table of an array. -/
def changeLast (f : Entries → Option Entries) : List Entries → Option (List Entries)
  | [] => none
  | [last] => (f last).map ([·])
  | first :: rest => (changeLast f rest).map (first :: ·)

/-- Sets a value under a dotted key, from the given table on. The table that takes the value must
have grown by dotted keys, unless the key has no dots. -/
def assign (birth : Option Birth) (keys : List String) (key : String) (v : Toml) (es : Entries) :
    Option Entries :=
  match keys with
  | [] =>
    if birth = none ∨ birth = some .dotted then
      match es.find key with
      | some _ => none
      | none => some (es.put key (.value v))
    else none
  | k :: keys =>
    match es.find k with
    | none => (assign (some .dotted) keys key v []).map fun sub => es.put k (.table .dotted sub)
    | some (.value _) => none
    | some (.table .header _) => none
    | some (.table b sub) => (assign (some b) keys key v sub).map fun sub => es.put k (.table b sub)
    | some (.tables ts) =>
      (changeLast (assign (some .header) keys key v) ts).map fun ts => es.put k (.tables ts)

/-- A change of the table that a header's keys lead to; tables on the way are made if needed. -/
def change (f : Entries → Option Entries) (keys : List String) (es : Entries) : Option Entries :=
  match keys with
  | [] => f es
  | k :: keys =>
    match es.find k with
    | none => (change f keys []).map fun sub => es.put k (.table .above sub)
    | some (.value _) => none
    | some (.table b sub) => (change f keys sub).map fun sub => es.put k (.table b sub)
    | some (.tables ts) => (changeLast (change f keys) ts).map fun ts => es.put k (.tables ts)

/-- The table that a header's keys lead to, as far as it exists. -/
def reach (keys : List String) (es : Entries) : Option Entries :=
  match keys with
  | [] => some es
  | k :: keys =>
    match es.find k with
    | none => some []
    | some (.value _) => none
    | some (.table _ sub) => reach keys sub
    | some (.tables ts) => ts.getLast?.bind (reach keys)

end Entries

mutual

def Item.toToml : Item → Toml
  | .value v => v
  | .table _ entries => .table (entriesToToml entries)
  | .tables ts => .array (tablesToToml ts)

def entriesToToml : List (String × Item) → List (String × Toml)
  | [] => []
  | (key, item) :: rest => (key, item.toToml) :: entriesToToml rest

def tablesToToml : List (List (String × Item)) → List Toml
  | [] => []
  | t :: ts => .table (entriesToToml t) :: tablesToToml ts

end

/-- A document in the making: the finished tables and the open one, which goes under `keys`, as the
next table of an array if `isArray`. -/
structure Draft where
  root : Entries
  current : Entries
  keys : List String
  isArray : Bool

namespace Draft

def begin : Draft := ⟨[], [], [], false⟩

def assign (d : Draft) (keys : List String) (key : String) (v : Toml) : Option Draft :=
  (d.current.assign none keys key v).map fun es => { d with current := es }

def close (d : Draft) : Option Entries :=
  match d.keys.getLast? with
  | none => some d.current
  | some key =>
    let place (es : Entries) : Option Entries :=
      if d.isArray then
        match es.find key with
        | some (.tables ts) => some (es.put key (.tables (ts ++ [d.current])))
        | _ => none
      else some (es.put key (.table .header d.current))
    d.root.change place d.keys.dropLast

/-- Opens the table of a header. A table that stood above other headers keeps what is below it, and
from now on stands after its neighbours. -/
def openTable (d : Draft) (keys : List String) : Option Draft := do
  let root ← d.close
  let key ← keys.getLast?
  let parent ← root.reach keys.dropLast
  match parent.find key with
  | none =>
    let root ← root.change some keys.dropLast
    return ⟨root, [], keys, false⟩
  | some (.table .above sub) =>
    let root ← root.change (fun es => some (es.erase key)) keys.dropLast
    return ⟨root, sub, keys, false⟩
  | some _ => none

/-- Opens one more table of an array. -/
def openArray (d : Draft) (keys : List String) : Option Draft := do
  let root ← d.close
  let key ← keys.getLast?
  let root ← root.change (fun es =>
    match es.find key with
    | none => some (es.put key (.tables []))
    | some (.tables _) => some es
    | some _ => none) keys.dropLast
  return ⟨root, [], keys, true⟩

end Draft
end Apportion.Toml
