/-!
Two ways of counting along a text: byte offsets of its UTF-8 form, and UTF-16 code units.
-/
namespace Apportion.Text

def byteLength : List Char → Nat
  | [] => 0
  | c :: cs => c.utf8Size + byteLength cs

/-- The text before and after a byte offset; `none` if the offset is inside a character or past
the end. -/
def splitAtByte : Nat → List Char → Option (List Char × List Char)
  | 0, s => some ([], s)
  | _ + 1, [] => none
  | n + 1, c :: cs =>
    if c.utf8Size ≤ n + 1 then
      (splitAtByte (n + 1 - c.utf8Size) cs).map fun (before, after) => (c :: before, after)
    else none

def isBoundary (s : List Char) (n : Nat) : Bool := (splitAtByte n s).isSome

/-- UTF-16 code units of a character: two above the basic plane. -/
def units16 (c : Char) : Nat := if c.toNat < 0x10000 then 1 else 2

@[simp] theorem byteLength_append (s t : List Char) :
    byteLength (s ++ t) = byteLength s + byteLength t := by
  induction s with
  | nil => simp [byteLength]
  | cons c cs ih => simp [byteLength, ih, Nat.add_assoc]

theorem splitAtByte_append (s t : List Char) : splitAtByte (byteLength s) (s ++ t) = some (s, t) := by
  induction s with
  | nil => cases t <;> rfl
  | cons c cs ih =>
    have pos : 0 < c.utf8Size := c.utf8Size_pos
    obtain ⟨n, hn⟩ : ∃ n, c.utf8Size + byteLength cs = n + 1 :=
      ⟨c.utf8Size + byteLength cs - 1, by omega⟩
    rw [byteLength, hn]
    simp only [List.cons_append, splitAtByte]
    rw [if_pos (by omega), show n + 1 - c.utf8Size = byteLength cs by omega, ih]
    rfl

theorem of_splitAtByte {n : Nat} {s before after : List Char}
    (h : splitAtByte n s = some (before, after)) : s = before ++ after ∧ byteLength before = n := by
  induction s generalizing n before with
  | nil =>
    cases n with
    | zero => simp_all [splitAtByte, byteLength]
    | succ n => simp [splitAtByte] at h
  | cons c cs ih =>
    cases n with
    | zero =>
      simp only [splitAtByte, Option.some.injEq, Prod.mk.injEq] at h
      simp [← h.1, ← h.2, byteLength]
    | succ n =>
      simp only [splitAtByte] at h
      split at h
      · simp only [Option.map_eq_some_iff, Prod.mk.injEq, Prod.exists] at h
        obtain ⟨b, a, found, rfl, rfl⟩ := h
        obtain ⟨whole, length⟩ := ih found
        refine ⟨by simp [whole], ?_⟩
        rw [byteLength, length]
        omega
      · simp at h

end Apportion.Text
