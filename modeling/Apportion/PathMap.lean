import Apportion.Path

/-!
Where each file goes: a finite map from present paths to final ones in which no present path and no
final path occurs twice. Paths are compared by components, and entries are in path order.
-/
namespace Apportion

/-- Entries in the order of their first paths. -/
structure PathMap where
  entries : List (Path × Path)
  deriving Repr

inductive PathConflict
  | duplicateSource (path : Path)
  | duplicateDestination (first second target : Path)
  deriving Repr

namespace PathMap

def check (earlier : List (Path × Path)) : List (Path × Path) → Except PathConflict Unit
  | [] => .ok ()
  | (source, target) :: rest =>
    if earlier.any fun e => e.1 == source then .error (.duplicateSource source)
    else
      match earlier.find? fun e => e.2 == target with
      | some (first, _) => .error (.duplicateDestination first source target)
      | none => check ((source, target) :: earlier) rest

def ofPairs (pairs : List (Path × Path)) : Except PathConflict PathMap :=
  (check [] pairs).map fun _ => ⟨pairs.mergeSort fun a b => a.1.precedes b.1⟩

def get? (m : PathMap) (p : Path) : Option Path := (m.entries.find? fun e => e.1 == p).map (·.2)

def contains (m : PathMap) (p : Path) : Bool := m.entries.any fun e => e.1 == p

def size (m : PathMap) : Nat := m.entries.length

def isEmpty (m : PathMap) : Bool := m.entries.isEmpty

end PathMap
end Apportion
