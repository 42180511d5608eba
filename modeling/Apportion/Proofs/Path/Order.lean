import Apportion.Proofs.Path.Components

/-!
The order of paths. Components are compared by rank and then as texts (`Component.compare_eq`), and
lists of them like words in a dictionary (`compareComponents_eq`). So the order is total, and it tells
paths apart exactly if their components differ (`compare_eq_eq_iff`).
-/
namespace Apportion
open Std

namespace Component

theorem compare_eq : Component.compare = compareLex (compareOn rank) (compareOn text) := by
  funext a b
  cases a <;> cases b <;> rfl

instance : TransCmp Component.compare := compare_eq ▸ inferInstance

instance : LawfulEqCmp Component.compare where
  eq_of_compare {a b} h := by
    rw [compare_eq, compareLex, Ordering.then_eq_eq, compareOn, compareOn,
      LawfulEqOrd.compare_eq_iff_eq, LawfulEqOrd.compare_eq_iff_eq] at h
    cases a <;> cases b <;> simp_all [rank, text]

end Component

namespace Path
variable {p q r : Path}

theorem compareComponents_eq (as bs : List Component) :
    compareComponents as bs = List.compareLex Component.compare as bs := by
  induction as generalizing bs with
  | nil => cases bs <;> rfl
  | cons a as ih =>
    cases bs with
    | nil => rfl
    | cons b bs => rw [compareComponents, ih, List.compareLex_cons_cons]

theorem compare_eq (p q : Path) :
    compare p q = List.compareLex Component.compare p.components q.components :=
  compareComponents_eq _ _

theorem compare_eq_eq_iff : compare p q = .eq ↔ p.components = q.components := by
  rw [compare_eq, LawfulEqCmp.compare_eq_iff_eq]

theorem precedes_eq (p q : Path) : p.precedes q = (compare p q).isLE := by
  rw [precedes]
  cases compare p q <;> rfl

theorem precedes_trans (h : p.precedes q = true) (h' : q.precedes r = true) :
    p.precedes r = true := by
  rw [precedes_eq, compare_eq] at h h' ⊢
  exact TransCmp.isLE_trans h h'

theorem precedes_total (p q : Path) : (p.precedes q || q.precedes p) = true := by
  have swap : compare q p = (compare p q).swap := by
    rw [compare_eq, compare_eq]
    exact OrientedCmp.eq_swap
  rw [precedes_eq, precedes_eq, swap]
  cases compare p q <;> rfl

/-- Of different paths, one comes strictly before the other. -/
theorem compare_eq_lt (h : p.precedes q = true) (ne : p.components ≠ q.components) :
    compare p q = .lt := by
  rw [precedes_eq] at h
  cases hc : compare p q with
  | lt => rfl
  | eq => exact absurd (compare_eq_eq_iff.mp hc) ne
  | gt => simp [hc] at h

end Path
end Apportion
