import Apportion.Settings.Load
import Mathlib.Order.Bounds.Basic
import Mathlib.Order.MinMax

/-!
What the edit distance counts. The rows are those of a recursion on both sequences, read from their
ends (`distance_eq_gap`). One edit changes that recursion's value by at most one (`gap_le_of_edit`), and
as many edits as it says do turn one sequence into the other (`edits_gap`), so it is the least number
of edits (`isLeast_distance`). A key is suggested for another if it is the first of the nearest, and at
most two edits away (`suggest_eq_some_iff`).
-/
namespace Apportion

namespace EditDistance
variable {α : Type}

/-! ## Edits -/

/-- One element is inserted, deleted or replaced. -/
inductive Edit : List α → List α → Prop
  | insert (xs ys : List α) (b : α) : Edit (xs ++ ys) (xs ++ b :: ys)
  | delete (xs ys : List α) (a : α) : Edit (xs ++ a :: ys) (xs ++ ys)
  | replace (xs ys : List α) (a b : α) : Edit (xs ++ a :: ys) (xs ++ b :: ys)

/-- A number of edits, one after the other. -/
inductive Edits : Nat → List α → List α → Prop
  | none (xs : List α) : Edits 0 xs xs
  | step {n : Nat} {xs ys zs : List α} : Edit xs ys → Edits n ys zs → Edits (n + 1) xs zs

theorem Edit.cons {xs ys : List α} (h : Edit xs ys) (c : α) : Edit (c :: xs) (c :: ys) := by
  cases h with
  | insert xs ys b => exact .insert (c :: xs) ys b
  | delete xs ys a => exact .delete (c :: xs) ys a
  | replace xs ys a b => exact .replace (c :: xs) ys a b

theorem Edits.cons {n : Nat} {xs ys : List α} (h : Edits n xs ys) (c : α) :
    Edits n (c :: xs) (c :: ys) := by
  induction h with
  | none xs => exact .none _
  | step edit _ ih => exact .step (edit.cons c) ih

theorem Edit.reverse {xs ys : List α} (h : Edit xs ys) : Edit xs.reverse ys.reverse := by
  cases h with
  | insert xs ys b => simpa using Edit.insert ys.reverse xs.reverse b
  | delete xs ys a => simpa using Edit.delete ys.reverse xs.reverse a
  | replace xs ys a b => simpa using Edit.replace ys.reverse xs.reverse a b

theorem Edits.reverse {n : Nat} {xs ys : List α} (h : Edits n xs ys) :
    Edits n xs.reverse ys.reverse := by
  induction h with
  | none xs => exact .none _
  | step edit _ ih => exact .step edit.reverse ih

theorem edits_reverse_iff {n : Nat} {xs ys : List α} :
    Edits n xs.reverse ys.reverse ↔ Edits n xs ys :=
  ⟨fun h => by simpa using h.reverse, Edits.reverse⟩

theorem edits_delete (xs : List α) : Edits xs.length xs [] := by
  induction xs with
  | nil => exact .none []
  | cons x xs ih => exact .step (.delete [] xs x) ih

theorem edits_insert (ys : List α) : Edits ys.length [] ys := by
  induction ys with
  | nil => exact .none []
  | cons y ys ih => exact .step (.insert [] [] y) (ih.cons y)

/-! ## The recursion behind the rows -/

variable [DecidableEq α]

/-- The distance by its first elements: one of them goes, or both do. -/
def gap : List α → List α → Nat
  | [], ys => ys.length
  | xs, [] => xs.length
  | x :: xs, y :: ys =>
    min (min (gap xs (y :: ys) + 1) (gap (x :: xs) ys + 1)) (gap xs ys + if x = y then 0 else 1)

theorem gap_nil_right (xs : List α) : gap xs [] = xs.length := by
  cases xs <;> simp [gap]

theorem gap_self (xs : List α) : gap xs xs = 0 := by
  induction xs with
  | nil => simp [gap]
  | cons x xs ih => simp [gap, ih]

theorem gap_cons_left_le (a : α) (xs zs : List α) : gap (a :: xs) zs ≤ gap xs zs + 1 := by
  cases zs with
  | nil => simp [gap_nil_right]
  | cons z zs => rw [gap]; omega

theorem gap_cons_right_le (b : α) (xs zs : List α) : gap xs (b :: zs) ≤ gap xs zs + 1 := by
  cases xs with
  | nil => simp [gap]
  | cons x xs => rw [gap]; omega

theorem gap_le_cons_left (a : α) (xs zs : List α) : gap xs zs ≤ gap (a :: xs) zs + 1 := by
  induction zs with
  | nil => simp [gap_nil_right, Nat.le_add_right_of_le]
  | cons z zs ih =>
    have right := gap_cons_right_le z xs zs
    rw [gap]
    split <;> omega

theorem gap_replace_le (a b : α) (xs zs : List α) : gap (a :: xs) zs ≤ gap (b :: xs) zs + 1 := by
  induction zs with
  | nil => simp [gap_nil_right]
  | cons z zs ih =>
    rw [gap, gap]
    split <;> split <;> omega

/-- What one edit can change stays as little behind a common first element. -/
theorem gap_cons_le {xs ys : List α} (near : ∀ zs, gap xs zs ≤ gap ys zs + 1) (c : α)
    (zs : List α) : gap (c :: xs) zs ≤ gap (c :: ys) zs + 1 := by
  induction zs with
  | nil => simpa [gap_nil_right] using near []
  | cons z zs ih =>
    have whole := near (z :: zs)
    have rest := near zs
    rw [gap, gap]
    omega

theorem gap_append_le {xs ys : List α} (near : ∀ zs, gap xs zs ≤ gap ys zs + 1) (front : List α) :
    ∀ zs, gap (front ++ xs) zs ≤ gap (front ++ ys) zs + 1 := by
  induction front with
  | nil => exact near
  | cons c front ih => exact gap_cons_le ih c

theorem gap_le_of_edit {xs ys : List α} (h : Edit xs ys) (zs : List α) :
    gap xs zs ≤ gap ys zs + 1 := by
  cases h with
  | insert xs ys b => exact gap_append_le (gap_le_cons_left b ys) xs zs
  | delete xs ys a => exact gap_append_le (gap_cons_left_le a ys) xs zs
  | replace xs ys a b => exact gap_append_le (gap_replace_le a b ys) xs zs

theorem gap_le_of_edits {n : Nat} {xs ys : List α} (h : Edits n xs ys) : gap xs ys ≤ n := by
  induction h with
  | none xs => exact (gap_self xs).le
  | step edit _ ih => exact (gap_le_of_edit edit _).trans (Nat.succ_le_succ ih)

/-- There are that many edits, made from the first element on. -/
theorem edits_gap (xs ys : List α) : Edits (gap xs ys) xs ys := by
  induction xs, ys using gap.induct with
  | case1 ys =>
    rw [gap]
    exact edits_insert ys
  | case2 xs =>
    rw [gap_nil_right]
    exact edits_delete xs
  | case3 x xs y ys delete insert replace =>
    have drop : Edits (gap xs (y :: ys) + 1) (x :: xs) (y :: ys) := .step (.delete [] xs x) delete
    have add : Edits (gap (x :: xs) ys + 1) (x :: xs) (y :: ys) :=
      .step (.insert [] (x :: xs) y) (insert.cons y)
    have exchange : Edits (gap xs ys + if x = y then 0 else 1) (x :: xs) (y :: ys) := by
      split
      · rename_i same
        exact same ▸ replace.cons x
      · exact .step (.replace [] xs x y) (replace.cons y)
    rw [gap]
    rcases min_choice (min (gap xs (y :: ys) + 1) (gap (x :: xs) ys + 1))
      (gap xs ys + if x = y then 0 else 1) with least | least
    · rw [least]
      rcases min_choice (gap xs (y :: ys) + 1) (gap (x :: xs) ys + 1) with one | one
      · rwa [one]
      · rwa [one]
    · rwa [least]

/-- The recursion gives the least number of edits. -/
theorem isLeast_gap (xs ys : List α) : IsLeast {n | Edits n xs ys} (gap xs ys) :=
  ⟨edits_gap xs ys, fun _ h => gap_le_of_edits h⟩

/-! ## Rows -/

/-- The distances of `p` to `q` and to what `q` grows to by the elements of `bs`. Both grow at their
front: they are beginnings of the sequences, reversed. -/
def rowFrom (p q : List α) : List α → List Nat
  | [] => [gap p q]
  | b :: bs => gap p q :: rowFrom p (b :: q) bs

theorem rowFrom_eq_cons (p q bs : List α) : rowFrom p q bs = gap p q :: (rowFrom p q bs).tail := by
  cases bs <;> rfl

theorem cells_rowFrom (a : α) (p q bs : List α) :
    cells a (gap (a :: p) q) bs (rowFrom p q bs) = (rowFrom (a :: p) q bs).tail := by
  induction bs generalizing q with
  | nil => rfl
  | cons b bs ih =>
    have cell : min (min (gap p (b :: q) + 1) (gap (a :: p) q + 1)) (gap p q + if a = b then 0 else 1) =
        gap (a :: p) (b :: q) := by rw [gap]
    have next := ih (b :: q)
    rw [rowFrom_eq_cons p (b :: q) bs] at next
    rw [rowFrom, rowFrom, List.tail_cons, rowFrom_eq_cons p (b :: q) bs, cells]
    simp only [cell, next]
    exact (rowFrom_eq_cons (a :: p) (b :: q) bs).symm

theorem nextRow_rowFrom (a : α) (p bs : List α) :
    nextRow bs (rowFrom p [] bs) a = rowFrom (a :: p) [] bs := by
  have start : gap p [] + 1 = gap (a :: p) [] := by simp [gap_nil_right]
  have next := cells_rowFrom a p [] bs
  rw [rowFrom_eq_cons p [] bs] at next
  rw [rowFrom_eq_cons p [] bs, nextRow]
  simp only [start, next]
  exact (rowFrom_eq_cons (a :: p) [] bs).symm

theorem foldl_nextRow (as p bs : List α) :
    as.foldl (nextRow bs) (rowFrom p [] bs) = rowFrom (as.reverse ++ p) [] bs := by
  induction as generalizing p with
  | nil => rfl
  | cons a as ih => rw [List.foldl_cons, nextRow_rowFrom, ih]; simp

theorem rowFrom_nil (q bs : List α) : rowFrom [] q bs = List.range' q.length (bs.length + 1) := by
  induction bs generalizing q with
  | nil => simp [rowFrom, gap]
  | cons b bs ih =>
    rw [rowFrom, ih, gap]
    exact List.range'_succ.symm

theorem getLast?_rowFrom (p q bs : List α) :
    (rowFrom p q bs).getLast? = some (gap p (bs.reverse ++ q)) := by
  induction bs generalizing q with
  | nil => rfl
  | cons b bs ih => 
    rw [rowFrom, List.getLast?_cons, ih]
    simp

theorem distance_eq_gap (as bs : List α) : distance as bs = gap as.reverse bs.reverse := by
  have first : firstRow bs = rowFrom [] [] bs := by rw [firstRow, rowFrom_nil, List.range_eq_range']; rfl
  rw [distance, first, foldl_nextRow, getLast?_rowFrom, List.append_nil, List.append_nil]
  rfl

theorem isLeast_distance (as bs : List α) : IsLeast {n | Edits n as bs} (distance as bs) := by
  have least := isLeast_gap as.reverse bs.reverse
  simp only [edits_reverse_iff] at least
  rwa [distance_eq_gap]

theorem bytes_eq (s : String) : bytes s = s.toUTF8.data.toList := by
  have whole : s.toUTF8 = s.toList.utf8Encode := String.utf8Encode_toList.symm
  rw [whole, List.utf8Encode, List.data_toByteArray]
  rfl

end EditDistance

/-! ## Suggestions -/

namespace KeyWarning

/-- The first of the keys at the least distance. -/
def FirstNearest (key : String) (keys : List String) (known : String) : Prop :=
  ∃ front back, keys = front ++ known :: back ∧
    (∀ k ∈ front, distance key known < distance key k) ∧
      ∀ k ∈ back, distance key known ≤ distance key k

theorem FirstNearest.le {key : String} {keys : List String} {known : String}
    (h : FirstNearest key keys known) : ∀ k ∈ keys, distance key known ≤ distance key k := by
  obtain ⟨front, back, rfl, before, after⟩ := h
  intro k mem
  rcases List.mem_append.mp mem with mem | mem
  · exact (before k mem).le
  · rcases List.mem_cons.mp mem with rfl | mem
    · exact le_rfl
    · exact after k mem

theorem firstNearest_cons_iff {key first known : String} {keys : List String} :
    FirstNearest key (first :: keys) known ↔
      (first = known ∧ ∀ k ∈ keys, distance key first ≤ distance key k) ∨
        (distance key known < distance key first ∧ FirstNearest key keys known) := by
  constructor
  · rintro ⟨front, back, whole, before, after⟩
    cases front with
    | nil =>
      obtain ⟨rfl, rfl⟩ := List.cons.inj whole
      exact .inl ⟨rfl, after⟩
    | cons k front =>
      obtain ⟨rfl, rfl⟩ := List.cons.inj whole
      exact .inr ⟨before first List.mem_cons_self, front, back, rfl,
        fun k mem => before k (List.mem_cons_of_mem _ mem), after⟩
  · rintro (⟨rfl, after⟩ | ⟨less, front, back, rfl, before, after⟩)
    · exact ⟨[], keys, rfl, by simp, after⟩
    · exact ⟨first :: front, back, rfl, List.forall_mem_cons.mpr ⟨less, before⟩, after⟩

theorem nearest_eq_none_iff {key : String} {keys : List String} :
    nearest key keys = none ↔ keys = [] := by
  cases keys with
  | nil => simp [nearest]
  | cons first keys =>
    rw [nearest]
    split
    · split <;> simp
    · simp

theorem nearest_eq_some_iff {key known : String} {keys : List String} :
    nearest key keys = some known ↔ FirstNearest key keys known := by
  induction keys generalizing known with
  | nil => simp [nearest, FirstNearest]
  | cons first keys ih =>
    rw [firstNearest_cons_iff, nearest]
    cases found : nearest key keys with
    | none =>
      obtain rfl := nearest_eq_none_iff.mp found
      simp [FirstNearest]
    | some later =>
      have least := (ih.mp found).le
      have mem : later ∈ keys := by
        obtain ⟨front, back, rfl, -⟩ := ih.mp found
        simp
      rw [← ih, found]
      by_cases less : distance key later < distance key first
      · simp only [if_pos less, Option.some.injEq]
        constructor
        · rintro rfl
          exact .inr ⟨less, rfl⟩
        · rintro (⟨rfl, all⟩ | ⟨-, same⟩)
          · exact absurd (all later mem) (Nat.not_le.mpr less)
          · exact same
      · simp only [if_neg less, Option.some.injEq]
        constructor
        · rintro rfl
          exact .inl ⟨rfl, fun k hk => (Nat.not_lt.mp less).trans (least k hk)⟩
        · rintro (⟨same, -⟩ | ⟨less', rfl⟩)
          · exact same
          · exact absurd less' less

theorem suggest_eq_some_iff {key known : String} : suggest key = some known ↔
    FirstNearest key knownKeys known ∧ distance key known ≤ 2 := by
  rw [suggest, Option.filter_eq_some_iff, nearest_eq_some_iff, decide_eq_true_iff]

/-- The distance of keys is the least number of bytes to insert, delete or replace, and a key that is
near enough to a known one is answered with the first of the nearest. -/
theorem suggests_by_fewest_edits :
    (∀ a b : String, IsLeast {n | EditDistance.Edits n a.toUTF8.data.toList b.toUTF8.data.toList}
      (distance a b)) ∧
    ∀ key : String,
      ((∃ known, suggest key = some known) ↔ ∃ known ∈ knownKeys, distance key known ≤ 2) ∧
      ∀ known, suggest key = some known ↔
        FirstNearest key knownKeys known ∧ distance key known ≤ 2 := by
  refine ⟨fun a b => ?_, fun key => ⟨?_, fun known => suggest_eq_some_iff⟩⟩
  · rw [distance, ← EditDistance.bytes_eq, ← EditDistance.bytes_eq]
    exact EditDistance.isLeast_distance _ _
  · constructor
    · rintro ⟨known, suggested⟩
      obtain ⟨⟨front, back, whole, -⟩, near⟩ := suggest_eq_some_iff.mp suggested
      exact ⟨known, by rw [whole]; simp, near⟩
    · rintro ⟨known, mem, near⟩
      cases found : nearest key knownKeys with
      | none => exact absurd (nearest_eq_none_iff.mp found) (by decide)
      | some first =>
        have nearest := nearest_eq_some_iff.mp found
        exact ⟨first, suggest_eq_some_iff.mpr ⟨nearest, (nearest.le known mem).trans near⟩⟩

/-- One letter is missing. -/
example : suggest "manifst_name" = some "manifest_name" := by decide +kernel

end KeyWarning
end Apportion
