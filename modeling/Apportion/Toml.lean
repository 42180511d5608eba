/-!
TOML values. Tables keep their keys in the order in which they were defined. Floats and dates keep
the text they were written as.
-/
namespace Apportion

inductive Toml
  | string (text : String)
  | integer (value : Int)
  | float (text : String)
  | datetime (text : String)
  | boolean (value : Bool)
  | array (items : List Toml)
  | table (entries : List (String × Toml))

namespace Toml

instance : Inhabited Toml := ⟨.table []⟩

def lookup (key : String) (entries : List (String × Toml)) : Option Toml :=
  (entries.find? fun (k, _) => k == key).map (·.2)

def string? : Toml → Option String
  | string text => some text
  | _ => none

def nat? : Toml → Option Nat
  | integer n => if 0 ≤ n then some n.toNat else none
  | _ => none

def bool? : Toml → Option Bool
  | boolean b => some b
  | _ => none

def strings? : Toml → Option (List String)
  | array items => items.mapM string?
  | _ => none

end Toml
end Apportion
