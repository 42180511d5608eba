import Apportion.Proofs.Path.Components
import Apportion.Text.Split

/-!
The lines of a text, one after the other. A text that is not empty is its first line, a line end, and a
text that has the lines behind the first (`lines_cases`).
-/
namespace Apportion.Text

theorem flatMap_append_sep (sep : List Char) {pieces : List (List Char)} (ne : pieces ≠ []) :
    pieces.flatMap (· ++ sep) = join sep pieces ++ sep := by
  obtain ⟨init, last, rfl⟩ := (List.eq_nil_or_concat pieces).resolve_left ne
  rw [List.concat_eq_append, join_concat]
  simp

theorem chomp_cases (line : List Char) :
    (chomp line = line ∧ line.getLast? ≠ some '\r') ∨ line = chomp line ++ ['\r'] := by
  unfold chomp
  split
  · rename_i rest e
    exact .inr (by rw [← List.reverse_reverse line, e, List.reverse_cons])
  · rename_i other
    refine .inl ⟨rfl, fun last => ?_⟩
    obtain ⟨front, rfl⟩ := List.getLast?_eq_some_iff.mp last
    exact other front.reverse (by simp)

theorem chomp_eq_self {line : List Char} (h : line.getLast? ≠ some '\r') : chomp line = line := by
  rcases chomp_cases line with ⟨same, -⟩ | e
  · exact same
  · rw [e] at h
    simp at h

theorem chomp_prefix (line : List Char) : chomp line <+: line := by
  rcases chomp_cases line with ⟨same, -⟩ | e
  · exact ⟨[], by rw [same, List.append_nil]⟩
  · exact ⟨['\r'], e.symm⟩

theorem linesOfPieces_append (pieces : List (List Char)) {more : List (List Char)} (ne : more ≠ []) :
    linesOfPieces (pieces ++ more) = pieces.map chomp ++ linesOfPieces more := by
  induction pieces with
  | nil => rfl
  | cons piece pieces ih =>
    have some : pieces ++ more ≠ [] := List.append_ne_nil_of_right_ne_nil pieces ne
    rw [List.map_cons, List.cons_append, List.cons_append, ← ih]
    cases whole : pieces ++ more with
    | nil => exact absurd whole some
    | cons => rfl

theorem lines_append (s t : List Char) :
    lines (s ++ '\n' :: t) = (split '\n' s).map chomp ++ lines t := by
  rw [lines, split_append_sep, linesOfPieces_append _ (split_ne_nil _ _)]
  rfl

theorem lines_flatMap {pieces : List (List Char)} (single : ∀ piece ∈ pieces, '\n' ∉ piece)
    (rest : List Char) :
    lines (pieces.flatMap (· ++ ['\n']) ++ rest) = pieces.map chomp ++ lines rest := by
  by_cases none : pieces = []
  · rw [none]
    rfl
  · rw [flatMap_append_sep _ none, List.append_assoc, List.singleton_append, lines_append,
      split_join none single]

theorem exists_prefix_of_mem_linesOfPieces {pieces : List (List Char)} {line : List Char}
    (h : line ∈ linesOfPieces pieces) : ∃ piece ∈ pieces, line <+: piece := by
  induction pieces with
  | nil => cases h
  | cons piece pieces ih =>
    cases pieces with
    | nil =>
      rw [linesOfPieces] at h
      split at h
      · cases h
      · exact ⟨piece, List.mem_cons_self, List.mem_singleton.mp h ▸ List.prefix_rfl⟩
    | cons next pieces =>
      rcases List.mem_cons.mp h with rfl | h
      · exact ⟨piece, List.mem_cons_self, chomp_prefix piece⟩
      · obtain ⟨found, mem, sub⟩ := ih h
        exact ⟨found, List.mem_cons_of_mem _ mem, sub⟩

theorem not_mem_of_mem_lines {s line : List Char} (h : line ∈ lines s) : '\n' ∉ line := by
  obtain ⟨piece, mem, sub⟩ := exists_prefix_of_mem_linesOfPieces h
  exact fun h => not_mem_of_mem_split '\n' s piece mem (sub.subset h)

/-- Only the last line ends in a carriage return, if no line break follows two of them. -/
theorem pairwise_lines {s : List Char} (clean : ¬ ['\r', '\r', '\n'] <:+: s) :
    (lines s).Pairwise fun line _ => line.getLast? ≠ some '\r' := by
  obtain ⟨init, last, e⟩ := (List.eq_nil_or_concat (split '\n' s)).resolve_left (split_ne_nil _ _)
  rw [List.concat_eq_append] at e
  have all : ∀ line ∈ init.map chomp, line.getLast? ≠ some '\r' := by
    intro line mem ends
    obtain ⟨piece, hp, rfl⟩ := List.mem_map.mp mem
    rcases chomp_cases piece with ⟨same, no⟩ | two
    · exact no (same ▸ ends)
    · -- what still ends in a carriage return has lost one in front of its line break
      refine clean ?_
      obtain ⟨front, e'⟩ := List.getLast?_eq_some_iff.mp ends
      obtain ⟨before, after, rfl⟩ := List.append_of_mem hp
      have whole := join_split '\n' s
      rw [e, join_concat, two, e'] at whole
      refine ⟨before.flatMap (· ++ ['\n']) ++ front, after.flatMap (· ++ ['\n']) ++ last, ?_⟩
      rw [← whole]
      simp
  rw [lines, e, linesOfPieces_append _ (List.cons_ne_nil _ _)]
  refine List.pairwise_append.mpr ⟨List.pairwise_of_forall_mem_list fun line h _ _ => all line h, ?_,
    fun line h _ _ => all line h⟩
  rw [linesOfPieces]
  split
  · exact .nil
  · exact List.pairwise_singleton _ _

/-- What stands behind a line: nothing, or a line end and the rest of the text. -/
def EndsLine (tail rest : List Char) : Prop :=
  (tail = [] ∧ rest = []) ∨ tail = '\n' :: rest ∨ tail = '\r' :: '\n' :: rest

theorem EndsLine.length_le {tail rest : List Char} (ends : EndsLine tail rest) :
    rest.length ≤ tail.length := by
  rcases ends with ⟨rfl, rfl⟩ | rfl | rfl
  · exact Nat.le_refl _
  · simp
  · simp
    omega

theorem lines_cases (s : List Char) : (s = [] ∧ lines s = []) ∨
    ∃ line tail rest, s = line ++ tail ∧ s ≠ [] ∧ EndsLine tail rest ∧ lines s = line :: lines rest := by
  by_cases broken : '\n' ∈ s
  · obtain ⟨piece, rest, rfl, single⟩ := List.eq_append_cons_of_mem broken
    have ne : piece ++ '\n' :: rest ≠ [] := by simp
    have whole : lines (piece ++ '\n' :: rest) = chomp piece :: lines rest := by
      rw [lines_append, split_eq_singleton single]
      rfl
    rcases chomp_cases piece with ⟨same, -⟩ | two
    · exact .inr ⟨chomp piece, '\n' :: rest, rest, by rw [same], ne, .inr (.inl rfl), whole⟩
    · refine .inr ⟨chomp piece, '\r' :: '\n' :: rest, rest, ?_, ne, .inr (.inr rfl), whole⟩
      calc piece ++ '\n' :: rest = (chomp piece ++ ['\r']) ++ '\n' :: rest := by rw [← two]
        _ = chomp piece ++ '\r' :: '\n' :: rest := by simp
  · have whole : lines s = if s = [] then [] else [s] := by rw [lines, split_eq_singleton broken]; rfl
    by_cases none : s = []
    · exact .inl ⟨none, by rw [whole, if_pos none]⟩
    · exact .inr ⟨s, [], [], (List.append_nil s).symm, none, .inl ⟨rfl, rfl⟩, by rw [whole, if_neg none]; rfl⟩

end Apportion.Text
