import Apportion.IgnoreList
import Apportion.Proofs.Text.Lines
import Mathlib.Data.List.DropRight
import Mathlib.Data.List.Induction

/-!
Ignore lists that are written again. The lines of a rendered list are those of the user's part, a blank
one, and the block. No line of the user's part starts a block (`trim_ne_start_of_mem_outside`), and the
block is taken out again as a whole (`outside_block`), so that the user's part comes back
(`userPart_render`): a list written anew has another block and is the same otherwise (`render_render`).
-/
namespace Apportion

namespace Text

/-! ## White space at the end -/

theorem trimEnd_append (s t : List Char) :
    trimEnd (s ++ t) = if trimEnd t = [] then trimEnd s else s ++ trimEnd t := by
  simp only [trimEnd, dropEndWhile, List.reverse_append, List.dropWhile_append,
    List.reverse_eq_nil_iff, List.isEmpty_iff]
  split <;> simp

theorem trimEnd_trimEnd (s : List Char) : trimEnd (trimEnd s) = trimEnd s :=
  List.rdropWhile_idempotent isBlank s

theorem trimEnd_singleton (c : Char) : trimEnd [c] = if isBlank c then [] else [c] :=
  List.rdropWhile_singleton isBlank c

theorem trimEnd_cons_of_busy {c : Char} (busy : isBlank c = false) (s : List Char) :
    trimEnd (c :: s) = c :: trimEnd s := by
  rw [← List.singleton_append, trimEnd_append, trimEnd_singleton, busy]
  split
  · rename_i blank
    rw [blank]
    rfl
  · rfl

theorem trim_cons_of_busy {c : Char} (busy : isBlank c = false) (s : List Char) :
    trim (c :: s) = c :: trimEnd s := by
  rw [trim, trimStart, List.dropWhile_cons_of_neg (by simp [busy]), trimEnd_cons_of_busy busy]

theorem trim_cons_of_blank {c : Char} (blank : isBlank c = true) (s : List Char) :
    trim (c :: s) = trim s := by
  rw [trim, trimStart, List.dropWhile_cons_of_pos blank]
  rfl

theorem trim_trimEnd (s : List Char) : trim (trimEnd s) = trim s := by
  induction s with
  | nil => rfl
  | cons c s ih =>
    cases blank : isBlank c with
    | false =>
      rw [trimEnd_cons_of_busy blank, trim_cons_of_busy blank, trim_cons_of_busy blank, trimEnd_trimEnd]
    | true =>
      rw [trim_cons_of_blank blank, ← ih, ← List.singleton_append, trimEnd_append, trimEnd_singleton,
        blank]
      split
      · rename_i none
        rw [none]
        rfl
      · exact trim_cons_of_blank blank _

/-- What is left of a trimmed text ends in no white space. -/
theorem isBlank_of_getLast?_trimEnd {s : List Char} {c : Char} (h : (trimEnd s).getLast? = some c) :
    isBlank c = false := by
  obtain ⟨init, e⟩ := List.getLast?_eq_some_iff.mp h
  exact (Path.of_dropEndWhile e).2

/-- A text with lines is trimmed by dropping blank lines at its end and trimming the last one left. -/
theorem trimEnd_join (lines : List (List Char)) :
    (trimEnd (join ['\n'] lines) = [] ∧ ∀ line ∈ lines, trimEnd line = []) ∨
    ∃ front last back, lines = front ++ last :: back ∧
      (trimEnd last ≠ [] ∧ ∀ line ∈ back, trimEnd line = []) ∧
      trimEnd (join ['\n'] lines) = join ['\n'] (front ++ [trimEnd last]) := by
  induction lines using List.reverseRecOn with
  | nil => exact .inl ⟨rfl, by simp⟩
  | append_singleton init last ih =>
    rw [join_concat, trimEnd_append]
    by_cases blank : trimEnd last = []
    · have too : ∀ line ∈ [last], trimEnd line = [] := by simpa using blank
      rw [if_pos blank]
      by_cases none : init = []
      · exact .inl ⟨by rw [none]; rfl, by simpa [none] using blank⟩
      · -- the line break before a blank line is white space as well
        rw [flatMap_append_sep _ none, trimEnd_append, if_pos (by decide)]
        rcases ih with ⟨trimmed, all⟩ | ⟨front, last', back, whole, ⟨ne, all⟩, trimmed⟩
        · exact .inl ⟨trimmed, List.forall_mem_append.mpr ⟨all, too⟩⟩
        · exact .inr ⟨front, last', back ++ [last], by rw [whole]; simp,
            ⟨ne, List.forall_mem_append.mpr ⟨all, too⟩⟩, trimmed⟩
    · rw [if_neg blank]
      exact .inr ⟨init, last, [], rfl, ⟨blank, by simp⟩, (join_concat _ _ _).symm⟩

end Text

open Text

namespace IgnoreList

/-! ## Blocks -/

theorem outside_sublist (inBlock : Bool) (lines : List (List Char)) :
    (outside inBlock lines).Sublist lines := by
  induction lines generalizing inBlock with
  | nil => exact .refl _
  | cons line lines ih =>
    unfold outside
    split
    · exact (ih _).cons _
    · split
      · exact (ih _).cons _
      · exact (ih _).cons_cons _

theorem trim_ne_start_of_mem_outside {inBlock : Bool} {lines : List (List Char)} {line : List Char}
    (h : line ∈ outside inBlock lines) : trim line ≠ blockStart.toList := by
  induction lines generalizing inBlock with
  | nil => cases h
  | cons first lines ih =>
    unfold outside at h
    split at h
    · exact ih h
    · rename_i other
      split at h
      · exact ih h
      · rcases List.mem_cons.mp h with rfl | h
        · exact other
        · exact ih h

/-- Lines of which none starts a block all stay. -/
theorem outside_append {front : List (List Char)}
    (other : ∀ line ∈ front, trim line ≠ blockStart.toList) (rest : List (List Char)) :
    outside false (front ++ rest) = front ++ outside false rest := by
  induction front with
  | nil => rfl
  | cons line front ih =>
    have here := other line List.mem_cons_self
    rw [List.cons_append, outside, if_neg here, if_neg Bool.false_ne_true,
      ih fun line h => other line (List.mem_cons_of_mem _ h), List.cons_append]

theorem outside_true_cons {line : List Char} (start : trim line ≠ blockStart.toList)
    (stop : trim line ≠ blockEnd.toList) (rest : List (List Char)) :
    outside true (line :: rest) = outside true rest := by
  rw [outside, if_neg start, if_pos rfl, decide_eq_true stop]

/-- The entry of a package is no marker. -/
theorem trim_chomp_slash (s : List Char) : (trim (chomp ('/' :: s))).head? = some '/' := by
  have slash : isBlank '/' = false := by decide
  rcases chomp_cases ('/' :: s) with ⟨same, -⟩ | e
  · rw [same, trim_cons_of_busy slash]
    rfl
  · cases line : chomp ('/' :: s) with
    | nil =>
      rw [line] at e
      simp at e
    | cons c rest =>
      rw [line] at e
      obtain ⟨rfl, -⟩ := List.cons.inj e
      rw [trim_cons_of_busy slash]
      rfl

theorem outside_block {names : List String} (single : ∀ name ∈ names, '\n' ∉ name.toList) :
    outside false (lines (block names)) = [] := by
  have entries : names.flatMap (fun name => '/' :: name.toList ++ ['\n']) =
      (names.map fun name => '/' :: name.toList).flatMap (· ++ ['\n']) := by
    rw [List.flatMap_map]
  have free : ∀ line ∈ names.map fun name => '/' :: name.toList, '\n' ∉ line := by
    intro line h
    obtain ⟨name, hn, rfl⟩ := List.mem_map.mp h
    simpa using single name hn
  have whole : lines (block names) = blockStart.toList ::
      ((names.map fun name => '/' :: name.toList).map chomp ++ [blockEnd.toList]) := by
    have stop : lines (blockEnd.toList ++ ['\n']) = [blockEnd.toList] := by decide +kernel
    have start : (split '\n' blockStart.toList).map chomp = [blockStart.toList] := by decide +kernel
    rw [block, entries, List.append_assoc, List.append_assoc, List.cons_append, lines_append,
      lines_flatMap free, start, stop, List.singleton_append]
  have inside : ∀ entries : List (List Char), (∀ line ∈ entries, (trim line).head? = some '/') →
      outside true (entries ++ [blockEnd.toList]) = [] := by
    intro entries
    induction entries with
    | nil => intro _; decide +kernel
    | cons line entries ih =>
      intro each
      have here := each line List.mem_cons_self
      rw [List.cons_append, outside_true_cons, ih fun line h => each line (List.mem_cons_of_mem _ h)]
      · rintro marker
        rw [marker] at here
        exact absurd here (by decide +kernel)
      · rintro marker
        rw [marker] at here
        exact absurd here (by decide +kernel)
  rw [whole, outside, if_pos (by decide +kernel)]
  refine inside _ fun line h => ?_
  simp only [List.map_map, List.mem_map] at h
  obtain ⟨name, -, rfl⟩ := h
  exact trim_chomp_slash _

/-! ## The user's part -/

/-- The user's part is made of lines that a second reading leaves as they are. -/
theorem exists_lines_of_userPart {template : String}
    (clean : ¬ ['\r', '\r', '\n'] <:+: template.toList) (some : userPart template ≠ []) :
    ∃ kept, userPart template = join ['\n'] kept ∧ kept ≠ [] ∧
      ∀ line ∈ kept, '\n' ∉ line ∧ chomp line = line ∧ trim line ≠ blockStart.toList := by
  obtain ⟨front, last, back, whole, -, trimmed⟩ :=
    (trimEnd_join (outside false (lines template.toList))).resolve_left fun h => some h.1
  have sub := outside_sublist false (lines template.toList)
  have ends := (pairwise_lines clean).sublist sub
  rw [whole] at ends
  refine ⟨front ++ [trimEnd last], trimmed, by simp, fun line h => ?_⟩
  rcases List.mem_append.mp h with h | h
  · have mem : line ∈ outside false (lines template.toList) := whole ▸ List.mem_append_left _ h
    refine ⟨not_mem_of_mem_lines (sub.subset mem), chomp_eq_self ?_,
      trim_ne_start_of_mem_outside mem⟩
    exact (List.pairwise_append.mp ends).2.2 line h last List.mem_cons_self
  · obtain rfl := List.mem_singleton.mp h
    have mem : last ∈ outside false (lines template.toList) := by simp [whole]
    have front := Path.dropEndWhile_isPrefix isBlank last
    refine ⟨fun h => not_mem_of_mem_lines (sub.subset mem) (front.subset h),
      chomp_eq_self fun ends => ?_, ?_⟩
    · exact absurd (isBlank_of_getLast?_trimEnd ends) (by decide)
    · rw [trim_trimEnd]
      exact trim_ne_start_of_mem_outside mem

/-- The user's part of a list is the same when the list is rendered. -/
theorem userPart_render {template : String} (clean : ¬ ['\r', '\r', '\n'] <:+: template.toList)
    {names : List String} (single : ∀ name ∈ names, '\n' ∉ name.toList) :
    userPart (render template names) = userPart template := by
  by_cases none : userPart template = []
  · rw [render, none, if_pos rfl, List.nil_append, userPart, String.toList_ofList,
      outside_block single]
    rfl
  · obtain ⟨kept, whole, ne, each⟩ := exists_lines_of_userPart clean none
    have again : lines (userPart template ++ '\n' :: '\n' :: block names) =
        (kept ++ [[]]) ++ lines (block names) := by
      have blank := lines_append [] (block names)
      rw [List.nil_append] at blank
      rw [lines_append, blank, whole, split_join ne fun line h => (each line h).1,
        List.map_congr_left fun line h => (each line h).2.1, List.map_id', List.append_assoc]
      rfl
    have other : ∀ line ∈ kept ++ [[]], trim line ≠ blockStart.toList := by
      intro line h
      rcases List.mem_append.mp h with h | h
      · exact (each line h).2.2
      · obtain rfl := List.mem_singleton.mp h
        decide +kernel
    -- the blank line in front of the block is the user's once the block is gone, and is trimmed
    rw [render, if_neg none, userPart, String.toList_ofList, List.append_assoc, List.cons_append,
      List.cons_append, List.nil_append, again, outside_append other, outside_block single,
      List.append_nil, join_concat, flatMap_append_sep _ ne, ← whole, List.append_nil, trimEnd_append,
      if_pos (by decide)]
    exact trimEnd_trimEnd _

/-- Rendering again replaces the block and leaves the user's part as it is, whatever blocks, markers
and line endings the template has, if no line break in it follows two carriage returns. -/
theorem render_render {template : String} (clean : ¬ ['\r', '\r', '\n'] <:+: template.toList)
    {names : List String} (single : ∀ name ∈ names, '\n' ∉ name.toList) (others : List String) :
    render (render template names) others = render template others ∧
      userPart (render template names) = userPart template := by
  have same := userPart_render clean single
  exact ⟨by rw [render, same, ← render], same⟩

/-- An end without a start stays, and a block that is never closed goes with all that follows it. -/
theorem render_render_mixed :
    let template := "# <<< pkgsplit generated packages <<<\r\n\n dist \t\r\n" ++
      "\t# >>> pkgsplit generated packages >>>\r\n/old\nlogs"
    let names := ["a", "b/c"]
    ¬ ['\r', '\r', '\n'] <:+: template.toList ∧ (∀ name ∈ names, '\n' ∉ name.toList) ∧
      render (render template names) ["d"] = render template ["d"] ∧
      String.ofList (userPart (render template names)) =
        "# <<< pkgsplit generated packages <<<\n\n dist" := by
  intro template names
  have clean : ¬ ['\r', '\r', '\n'] <:+: template.toList := by decide +kernel
  have single : ∀ name ∈ names, '\n' ∉ name.toList := by decide +kernel
  obtain ⟨again, same⟩ := render_render clean single ["d"]
  refine ⟨clean, single, again, ?_⟩
  rw [same]
  decide +kernel

end IgnoreList
end Apportion
