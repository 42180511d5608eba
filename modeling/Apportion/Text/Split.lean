import Apportion.Text.Character

/-!
Cutting a text: white space from its ends, at a separator, and into lines. `join_split` says that
nothing is lost between separators, and `split_join` that pieces free of the separator come back as
they were. A line ends with a line feed, which is no part of it; neither is one carriage return right
before the line feed. A text that ends with a line feed has no empty last line.
-/
namespace Apportion.Text

/-! ## Trimming -/

/-- The list without the longest run at its end that satisfies `p`. -/
def dropEndWhile {α : Type} (p : α → Bool) (s : List α) : List α :=
  (s.reverse.dropWhile p).reverse

def trimStart (s : List Char) : List Char := s.dropWhile isBlank

def trimEnd (s : List Char) : List Char := dropEndWhile isBlank s

def trim (s : List Char) : List Char := trimEnd (trimStart s)

/-! ## Separators -/

/-- The pieces between the separators; there is always at least one. -/
def split (sep : Char) : List Char → List (List Char)
  | [] => [[]]
  | c :: cs =>
    if c = sep then [] :: split sep cs
    else
      match split sep cs with
      | [] => [[c]]
      | piece :: pieces => (c :: piece) :: pieces

def join (sep : List Char) : List (List Char) → List Char
  | [] => []
  | [piece] => piece
  | piece :: pieces => piece ++ sep ++ join sep pieces

theorem split_ne_nil (sep : Char) (s : List Char) : split sep s ≠ [] := by
  cases s with
  | nil => simp [split]
  | cons c cs =>
    simp only [split]
    split
    · simp
    · split <;> simp

theorem join_cons {sep piece : List Char} {pieces : List (List Char)} (h : pieces ≠ []) :
    join sep (piece :: pieces) = piece ++ sep ++ join sep pieces := by
  cases pieces with
  | nil => exact absurd rfl h
  | cons => rfl

theorem join_cons_cons_char (sep : List Char) (c : Char) (piece : List Char)
    (pieces : List (List Char)) :
    join sep ((c :: piece) :: pieces) = c :: join sep (piece :: pieces) := by
  cases pieces <;> simp [join]

theorem join_split (sep : Char) (s : List Char) : join [sep] (split sep s) = s := by
  induction s with
  | nil => rfl
  | cons c cs ih =>
    simp only [split]
    split
    · rename_i h
      rw [join_cons (split_ne_nil sep cs), ih, h]
      rfl
    · split
      · rename_i h
        exact absurd h (split_ne_nil sep cs)
      · rename_i piece pieces h
        rw [join_cons_cons_char, ← h, ih]

theorem not_mem_of_mem_split (sep : Char) (s : List Char) :
    ∀ piece ∈ split sep s, sep ∉ piece := by
  induction s with
  | nil => simp [split]
  | cons c cs ih =>
    simp only [split]
    split
    · simpa using ih
    · rename_i h
      split
      · rename_i e
        exact absurd e (split_ne_nil sep cs)
      · rename_i piece pieces e
        simp only [e, List.mem_cons, forall_eq_or_imp] at ih
        simp only [List.mem_cons, forall_eq_or_imp, not_or]
        exact ⟨⟨fun e => h e.symm, ih.1⟩, ih.2⟩

theorem split_eq_singleton {sep : Char} {s : List Char} (h : sep ∉ s) : split sep s = [s] := by
  induction s with
  | nil => rfl
  | cons c cs ih =>
    simp only [List.mem_cons, not_or] at h
    simp [split, Ne.symm h.1, ih h.2]

theorem split_append_cons {sep : Char} {s : List Char} (t : List Char) (h : sep ∉ s) :
    split sep (s ++ sep :: t) = s :: split sep t := by
  induction s with
  | nil => simp [split]
  | cons c cs ih =>
    simp only [List.mem_cons, not_or] at h
    simp [split, Ne.symm h.1, ih h.2]

theorem split_join {sep : Char} {pieces : List (List Char)} (ne : pieces ≠ [])
    (h : ∀ piece ∈ pieces, sep ∉ piece) : split sep (join [sep] pieces) = pieces := by
  induction pieces with
  | nil => exact absurd rfl ne
  | cons piece pieces ih =>
    simp only [List.mem_cons, forall_eq_or_imp] at h
    by_cases e : pieces = []
    · subst e
      exact split_eq_singleton h.1
    · rw [join_cons e, List.append_assoc, List.singleton_append, split_append_cons _ h.1,
        ih e h.2]

/-! ## Lines -/

/-- A line without one carriage return at its end. -/
def chomp (line : List Char) : List Char :=
  match line.reverse with
  | '\r' :: rest => rest.reverse
  | _ => line

/-- The pieces before the last are ended by a line feed and lose their carriage return; the last
one keeps it, and counts only if it is not empty. -/
def linesOfPieces : List (List Char) → List (List Char)
  | [] => []
  | [last] => if last = [] then [] else [last]
  | piece :: pieces => chomp piece :: linesOfPieces pieces

def lines (s : List Char) : List (List Char) := linesOfPieces (split '\n' s)

end Apportion.Text
