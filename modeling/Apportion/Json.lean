/-!
JSON values. Objects keep their fields in written order, repeated keys included. A number keeps
its decimal digits, so no precision is lost.
-/
namespace Apportion

/-- A number as written: `±mantissa · 10^scale`, and whether it had neither fraction nor
exponent. -/
structure Numeral where
  negative : Bool
  mantissa : Nat
  scale : Int
  isInteger : Bool
  deriving DecidableEq, Repr

namespace Numeral

def ofNat (n : Nat) : Numeral := ⟨false, n, 0, true⟩

/-- The number written as a plain run of digits without a sign. -/
def toNat? (n : Numeral) : Option Nat :=
  if n.isInteger && !n.negative then some n.mantissa else none

/-- The least magnitude that rounds past the largest double, half a step above it. -/
def doubleLimit : Nat := Nat.pow 2 1024 - Nat.pow 2 970

/-- Whether the nearest double is finite. Magnitudes far from the limit are told by their digit
count alone. -/
def fitsDouble (n : Numeral) : Bool :=
  let digits : Int := (Nat.toDigits 10 n.mantissa).length
  if n.mantissa = 0 || digits + n.scale ≤ 308 then true
  else if 309 < digits + n.scale then false
  else n.mantissa * Nat.pow 10 n.scale.toNat < doubleLimit * Nat.pow 10 (-n.scale).toNat

/-- The nearest number with at most 53 significant bits; of two equally near ones, the even one. -/
def roundToDouble (n : Nat) : Nat :=
  let step := Nat.pow 2 (n.log2 - 52)
  let units := n / step
  let twice := 2 * (n % step)
  if step < twice || (step == twice && units % 2 == 1) then (units + 1) * step else units * step

/-- The leading digits of a number that fit an unsigned word of 64 bits, and how many digits are
left out behind them. -/
def leadingWord (n : Nat) : Nat × Nat :=
  if n < 0x10000000000000000 then (n, 0)
  else
    let (word, dropped) := leadingWord (n / 10)
    (word, dropped + 1)
termination_by n
decreasing_by omega

/-- Whether the number stays finite when it is computed in doubles: its leading digits are rounded,
and multiplied by a rounded power of ten. Division by a power of ten cannot overflow. -/
def hasFiniteProduct (n : Numeral) : Bool :=
  let (word, dropped) := leadingWord n.mantissa
  let scale := n.scale + dropped
  if word = 0 || scale ≤ 0 then true
  else if 308 < scale then false
  else
    roundToDouble (roundToDouble word * roundToDouble (Nat.pow 10 scale.toNat)) < Nat.pow 2 1024

end Numeral

/-- A JSON value. The text of a string is absent if an escape in it leaves half of a surrogate pair
alone: such a string is well formed, but stands for no text. -/
inductive Json
  | null
  | bool (value : Bool)
  | number (value : Numeral)
  | string (text : Option String)
  | array (items : List Json)
  | object (fields : List (Option String × Json))

namespace Json

instance : Inhabited Json := ⟨.null⟩

def ofString (s : String) : Json := .string (some s)

def ofNat (n : Nat) : Json := .number (Numeral.ofNat n)

def ofOption {α : Type} (f : α → Json) : Option α → Json
  | some a => f a
  | none => .null

/-- An object whose keys are plain texts. -/
def ofFields (fields : List (String × Json)) : Json := .object (fields.map fun (k, v) => (some k, v))

end Json
end Apportion
