import Apportion.Proofs.IgnoreList

/-!
Which lines of the user's a rendered list keeps. Taking blocks out in one pass drops a line if a start
line opens a block at it or before it (`outside_cons`), whether or not an end line follows. So a line
between a start line and a later end line goes, as it should, and one behind a start line that nothing
closes goes as well: the user's lines are safe if each start line is closed, and only then
(`keeps_lines_iff`).
-/
namespace Apportion.IgnoreList
open Text

def isStart (line : List Char) : Bool := trim line = blockStart.toList

def isEnd (line : List Char) : Bool := trim line = blockEnd.toList

def isBusy (line : List Char) : Bool := trimEnd line ≠ []

/-! ## Lines told by their neighbours -/

/-- The lines that are kept, told by the lines before them, the nearest first, and by those behind. -/
def keepWhere (keep : List (List Char) → List Char → List (List Char) → Bool)
    (before : List (List Char)) : List (List Char) → List (List Char)
  | [] => []
  | line :: after =>
    let rest := keepWhere keep (line :: before) after
    if keep before line after then line :: rest else rest

/-- A start line stands at the line or before it, and an end line at the line or behind it. -/
def enclosed (before : List (List Char)) (line : List Char) (after : List (List Char)) : Bool :=
  (line :: before).any isStart && (line :: after).any isEnd

/-- A start line comes before, and no end line since. -/
def isOpen (before : List (List Char)) : Bool := (before.takeWhile fun line => !isEnd line).any isStart

/-- The line stands between a start line and the first end line behind that, or is one of the two. -/
def inBlock (before : List (List Char)) (line : List Char) (after : List (List Char)) : Bool :=
  (isStart line || isOpen before) && (line :: after).any isEnd

/-- The lines that are neither blank nor covered. -/
def owed (covered : List (List Char) → List Char → List (List Char) → Bool)
    (lines : List (List Char)) : List (List Char) :=
  keepWhere (fun before line after => isBusy line && !covered before line after) [] lines

/-- The rendered list shows the lines that are not covered, in their order and as they were but for
white space at their ends. -/
def Keeps (covered : List (List Char) → List Char → List (List Char) → Bool) (template : String)
    (names : List String) : Prop :=
  ((owed covered (lines template.toList)).map trimEnd).Sublist
    ((lines (render template names).toList).map trimEnd)

/-- Each start line has an end line behind it. The only other one is at the very end, where the block
is going to start. -/
def Closed (lines : List (List Char)) : Prop :=
  ∀ front line back, lines = front ++ line :: back → isStart line = true →
    back.any isEnd = true ∨ (trimEnd line = blockStart.toList ∧ back.any isBusy = false)

theorem Closed.tail {line : List Char} {lines : List (List Char)} (h : Closed (line :: lines)) :
    Closed lines :=
  fun front found back whole => h (line :: front) found back (by rw [whole]; rfl)

variable {keep keep' covered : List (List Char) → List Char → List (List Char) → Bool}
  {line : List Char}

theorem isEnd_of_isStart (h : isStart line = true) : isEnd line = false := by
  have start : trim line = blockStart.toList := of_decide_eq_true h
  rw [isEnd, start]
  decide

theorem isOpen_cons (line : List Char) (before : List (List Char)) :
    isOpen (line :: before) = (!isEnd line && (isStart line || isOpen before)) := by
  rw [isOpen, List.takeWhile_cons]
  cases isEnd line with
  | false => simp [isOpen]
  | true => simp

/-! ## What is dropped -/

/-- The pass is in a block exactly if the lines so far have opened one. -/
theorem outside_cons (before : List (List Char)) (line : List Char) (lines : List (List Char)) :
    outside (isOpen before) (line :: lines) =
      if isStart line || isOpen before then outside (isOpen (line :: before)) lines
      else line :: outside (isOpen (line :: before)) lines := by
  rw [outside, isOpen_cons]
  by_cases start : isStart line = true
  · have marker : trim line = blockStart.toList := of_decide_eq_true start
    rw [if_pos marker, isEnd_of_isStart start, start]
    rfl
  · have other : trim line ≠ blockStart.toList := fun marker => start (decide_eq_true marker)
    rw [if_neg other, eq_false_of_ne_true start, Bool.false_or]
    cases isOpen before with
    | false => simp
    | true => simp [isEnd]

theorem keepWhere_sublist
    (all : ∀ before line after, keep before line after = true → keep' before line after = true)
    (before lines : List (List Char)) :
    (keepWhere keep before lines).Sublist (keepWhere keep' before lines) := by
  induction lines generalizing before with
  | nil => exact .slnil
  | cons line lines ih =>
    rw [keepWhere, keepWhere]
    by_cases kept : keep before line lines = true
    · rw [if_pos kept, if_pos (all _ _ _ kept)]
      exact (ih _).cons_cons line
    · rw [if_neg kept]
      split
      · exact (ih _).cons line
      · exact ih _

/-- What is kept behind some lines is kept whatever else is kept of them. -/
theorem exists_keepWhere_append (front before back : List (List Char)) : ∃ kept,
    keepWhere keep before (front ++ back) = kept ++ keepWhere keep (front.reverse ++ before) back := by
  induction front generalizing before with
  | nil => exact ⟨[], rfl⟩
  | cons line front ih =>
    obtain ⟨kept, whole⟩ := ih (line :: before)
    rw [List.cons_append, keepWhere, whole, List.reverse_cons, List.append_assoc]
    split
    · exact ⟨line :: kept, rfl⟩
    · exact ⟨kept, rfl⟩

/-! ## What the list shows -/

/-- The lines of the user's part are those outside of blocks, without blank ones at the end. -/
theorem shown_cases (template : String) :
    let kept := outside false (lines template.toList)
    (userPart template = [] ∧ ∀ line ∈ kept, trimEnd line = []) ∨
      ∃ front last back, kept = front ++ last :: back ∧ (∀ line ∈ back, trimEnd line = []) ∧
        userPart template ≠ [] ∧ split '\n' (userPart template) = front ++ [trimEnd last] := by
  intro kept
  rcases trimEnd_join kept with ⟨none, blank⟩ | ⟨front, last, back, whole, ⟨busy, blank⟩, trimmed⟩
  · exact .inl ⟨none, blank⟩
  · have single : ∀ line ∈ kept, '\n' ∉ line := fun line mem =>
      not_mem_of_mem_lines ((outside_sublist _ _).subset mem)
    have whole' : userPart template = join ['\n'] (front ++ [trimEnd last]) := trimmed
    refine .inr ⟨front, last, back, whole, blank, ?_, ?_⟩
    · rw [whole', join_concat]
      exact List.append_ne_nil_of_right_ne_nil _ busy
    · rw [whole']
      refine split_join (by simp) (List.forall_mem_append.mpr ⟨fun line mem => ?_, ?_⟩)
      · exact single line (by rw [whole]; exact List.mem_append_left _ mem)
      · have last' := single last (by rw [whole]; simp)
        have sub : trimEnd last <+: last := Path.dropEndWhile_isPrefix isBlank last
        simpa using fun mem => last' (sub.subset mem)

theorem trimEnd_chomp (line : List Char) : trimEnd (chomp line) = trimEnd line := by
  rcases chomp_cases line with ⟨same, -⟩ | whole
  · rw [same]
  · conv_rhs => rw [whole, trimEnd_append, if_pos (by decide)]

/-- The rendered list is the user's part, a blank line, and the block. -/
theorem lines_render (template : String) (names : List String) :
    lines (render template names).toList =
      (if userPart template = [] then [] else (split '\n' (userPart template)).map chomp ++ [[]]) ++
        lines (block names) := by
  rw [render, String.toList_ofList]
  split
  · rfl
  · have blank := lines_append [] (block names)
    rw [List.nil_append] at blank
    rw [List.append_assoc, List.cons_append, List.cons_append, List.nil_append, lines_append, blank,
      List.append_assoc]
    rfl

theorem exists_lines_block (names : List String) :
    ∃ more, lines (block names) = blockStart.toList :: more := by
  have start : (split '\n' blockStart.toList).map chomp = [blockStart.toList] := by decide
  rw [block, List.append_assoc, List.append_assoc, List.cons_append, lines_append, start]
  exact ⟨_, rfl⟩

/-- The busy lines outside of blocks stand above the block. -/
theorem outside_sublist_render (template : String) (names : List String) :
    (((outside false (lines template.toList)).filter isBusy).map trimEnd ++ [blockStart.toList]).Sublist
      ((lines (render template names).toList).map trimEnd) := by
  have marker : [blockStart.toList].Sublist ((lines (block names)).map trimEnd) := by
    obtain ⟨more, whole⟩ := exists_lines_block names
    have trimmed : trimEnd blockStart.toList = blockStart.toList := by decide
    rw [whole, List.map_cons, trimmed]
    exact (List.nil_sublist _).cons_cons _
  rw [lines_render, List.map_append]
  refine List.Sublist.append ?_ marker
  rcases shown_cases template with ⟨none, blank⟩ | ⟨front, last, back, whole, blank, some, shown⟩
  · have no : (outside false (lines template.toList)).filter isBusy = [] :=
      List.filter_eq_nil_iff.mpr fun line mem => by simp [isBusy, blank line mem]
    rw [no]
    exact List.nil_sublist _
  · have no : back.filter isBusy = [] :=
      List.filter_eq_nil_iff.mpr fun line mem => by simp [isBusy, blank line mem]
    have same : ((split '\n' (userPart template)).map chomp).map trimEnd =
        (front ++ [last]).map trimEnd := by
      simp [shown, trimEnd_chomp, trimEnd_trimEnd]
    have busy : (outside false (lines template.toList)).filter isBusy =
        (front ++ [last]).filter isBusy := by
      rw [whole, ← List.singleton_append, ← List.append_assoc, List.filter_append, no, List.append_nil]
    rw [if_neg some, List.map_append, same, busy]
    exact (List.filter_sublist.map trimEnd).trans (List.sublist_append_left _ _)

/-! ## Closed lists keep all -/

theorem keepWhere_of_blank {rows : List (List Char)} (blank : rows.any isBusy = false)
    (before : List (List Char)) :
    keepWhere (fun before line after => isBusy line && keep before line after) before rows = [] := by
  induction rows generalizing before with
  | nil => rfl
  | cons line rows ih =>
    rw [List.any_cons, Bool.or_eq_false_iff] at blank
    rw [keepWhere, ih blank.2, blank.1]
    rfl

/-- Of the busy lines that no block holds, the pass drops at most a start line, the last of them. -/
theorem owed_sublist_outside {rows : List (List Char)} (closed : Closed rows)
    (before : List (List Char))
    (ending : isOpen before = true → rows.any isEnd = true ∨ rows.any isBusy = false) :
    ((keepWhere (fun before line after => isBusy line && !inBlock before line after) before rows).map
      trimEnd).Sublist (((outside (isOpen before) rows).filter isBusy).map trimEnd ++
        [blockStart.toList]) := by
  induction rows generalizing before with
  | nil => exact List.nil_sublist _
  | cons line rows ih =>
    have next := isOpen_cons line before
    have later := ih closed.tail (line :: before)
    rw [outside_cons, keepWhere]
    cases start : isStart line with
    | true =>
      have covered : inBlock before line rows = rows.any isEnd := by
        simp [inBlock, start, isEnd_of_isStart start]
      simp only [covered, Bool.true_or, if_true]
      by_cases ends : rows.any isEnd = true
      · simpa only [ends, Bool.not_true, Bool.and_false, Bool.false_eq_true, if_false] using
          later fun _ => .inl ends
      · -- the line is the last of the busy ones, and stands for the start of the block
        obtain ⟨marker, blank⟩ := (closed [] line rows rfl start).resolve_left ends
        rw [keepWhere_of_blank blank]
        split
        · rw [List.map_cons, marker]
          exact List.sublist_append_right _ _
        · exact List.nil_sublist _
    | false =>
      cases opened : isOpen before with
      | true =>
        have covered : (isBusy line && !inBlock before line rows) = false := by
          rcases ending opened with ends | blank
          · simp [inBlock, start, opened, ends]
          · rw [List.any_cons, Bool.or_eq_false_iff] at blank
            simp [blank.1]
        simp only [covered, Bool.false_or, if_true, Bool.false_eq_true, if_false]
        refine later fun still => (ending opened).imp (fun ends => ?_) fun blank => ?_
        · rw [next, Bool.and_eq_true, Bool.not_eq_true'] at still
          simpa [still.1] using ends
        · exact (Bool.or_eq_false_iff.mp blank).2
      | false =>
        have free : inBlock before line rows = false := by simp [inBlock, start, opened]
        rw [start, opened, Bool.or_false, Bool.and_false] at next
        rw [next] at later ⊢
        simp only [free, Bool.not_false, Bool.and_true, Bool.or_false, Bool.false_eq_true, if_false]
        rw [List.filter_cons]
        split
        · exact (later (by simp)).cons_cons _
        · exact later (by simp)

theorem keeps_of_closed {template : String} (closed : Closed (lines template.toList))
    (names : List String) : Keeps inBlock template names :=
  (owed_sublist_outside closed [] (by simp [isOpen])).trans (outside_sublist_render template names)

/-- A line of a block is enclosed by a start line and an end line. -/
theorem enclosed_of_inBlock {before : List (List Char)} {after : List (List Char)}
    (h : inBlock before line after = true) : enclosed before line after = true := by
  rw [inBlock, Bool.and_eq_true, Bool.or_eq_true] at h
  rw [enclosed, Bool.and_eq_true, List.any_cons, Bool.or_eq_true]
  refine ⟨h.1.imp_right fun opened => ?_, h.2⟩
  obtain ⟨found, mem, start⟩ := List.any_eq_true.mp opened
  exact List.any_eq_true.mpr ⟨found, (List.takeWhile_sublist _).subset mem, start⟩

theorem owed_enclosed_sublist (rows : List (List Char)) :
    (owed enclosed rows).Sublist (owed inBlock rows) := by
  refine keepWhere_sublist (fun before line after kept => ?_) [] rows
  simp only [Bool.and_eq_true, Bool.not_eq_true'] at kept ⊢
  refine ⟨kept.1, Bool.eq_false_iff.mpr fun block => ?_⟩
  rw [enclosed_of_inBlock block] at kept
  cases kept.2

/-! ## Lists that keep all are closed -/

/-- Where no end line follows, all busy lines are owed. -/
theorem keepWhere_of_endless
    (ends : ∀ before line after, covered before line after = true → (line :: after).any isEnd = true)
    {rows : List (List Char)} (endless : rows.any isEnd = false) (before : List (List Char)) :
    keepWhere (fun before line after => isBusy line && !covered before line after) before rows =
      rows.filter isBusy := by
  induction rows generalizing before with
  | nil => rfl
  | cons line rows ih =>
    have free : covered before line rows = false := by
      refine Bool.eq_false_iff.mpr fun c => ?_
      rw [ends _ _ _ c] at endless
      cases endless
    rw [List.any_cons, Bool.or_eq_false_iff] at endless
    rw [keepWhere, ih endless.2, List.filter_cons, free, Bool.not_false, Bool.and_true]

theorem trim_nil_ne_start : trim [] ≠ blockStart.toList := by decide

theorem trim_ne_start_of_shown {template : String} {line : List Char}
    (h : line ∈ split '\n' (userPart template)) : trim line ≠ blockStart.toList := by
  rcases shown_cases template with ⟨none, -⟩ | ⟨front, last, back, whole, -, -, shown⟩
  · rw [none] at h
    obtain rfl := List.mem_singleton.mp h
    exact trim_nil_ne_start
  · rw [shown] at h
    rcases List.mem_append.mp h with mem | mem
    · exact trim_ne_start_of_mem_outside (whole ▸ List.mem_append_left _ mem)
    · rw [List.mem_singleton.mp mem, trim_trimEnd]
      exact trim_ne_start_of_mem_outside (whole ▸ List.mem_append_right _ List.mem_cons_self)

/-- A sublist that has a first element which is not in the front comes from behind the front. -/
theorem sublist_of_not_mem {α : Type} {x : α} {xs front back : List α}
    (h : (x :: xs).Sublist (front ++ back)) (free : x ∉ front) : (x :: xs).Sublist back := by
  induction front with
  | nil => exact h
  | cons c front ih =>
    rw [List.mem_cons, not_or] at free
    rw [List.cons_append] at h
    cases h with
    | cons _ h => exact ih h free.2
    | cons_cons _ h => exact absurd rfl free.1

/-- What stands above the block in a rendered list starts no block. -/
theorem trim_ne_start_of_above {template : String} {line : List Char}
    (h : line ∈ (if userPart template = [] then []
      else (split '\n' (userPart template)).map chomp ++ [[]])) :
    trim line ≠ blockStart.toList := by
  split at h
  · cases h
  · rcases List.mem_append.mp h with mem | mem
    · obtain ⟨shown, there, rfl⟩ := List.mem_map.mp mem
      rw [← trim_trimEnd, trimEnd_chomp, trim_trimEnd]
      exact trim_ne_start_of_shown there
    · obtain rfl := List.mem_singleton.mp mem
      exact trim_nil_ne_start

/-- A start line that nothing closes is owed, and so are all busy lines behind it. -/
theorem owed_of_endless
    (ends : ∀ before line after, covered before line after = true → (line :: after).any isEnd = true)
    (front : List (List Char)) {back : List (List Char)} (start : isStart line = true)
    (endless : (line :: back).any isEnd = false) :
    (line :: back.filter isBusy).Sublist (owed covered (front ++ line :: back)) := by
  obtain ⟨first, found⟩ : ∃ kept, owed covered (front ++ line :: back) =
      kept ++ keepWhere (fun before line after => isBusy line && !covered before line after)
        (front.reverse ++ []) (line :: back) := exists_keepWhere_append front [] (line :: back)
  have busy : isBusy line = true := by
    refine decide_eq_true fun blank => ?_
    have marker : trim line = blockStart.toList := of_decide_eq_true start
    rw [← trim_trimEnd, blank] at marker
    exact trim_nil_ne_start marker
  rw [keepWhere_of_endless ends endless, List.filter_cons, if_pos busy] at found
  rw [found]
  exact List.sublist_append_right _ _

theorem trimEnd_ne_end_of_not_isEnd (h : ¬ isEnd line = true) : trimEnd line ≠ blockEnd.toList := by
  intro same
  refine h ?_
  rw [isEnd, ← trim_trimEnd, same]
  decide

/-- If no line is lost beside a block without packages, each start line is closed. -/
theorem closed_of_keeps
    (ends : ∀ before line after, covered before line after = true → (line :: after).any isEnd = true)
    {template : String} (kept : Keeps covered template []) : Closed (lines template.toList) := by
  intro front line back whole start
  refine or_iff_not_imp_left.mpr fun open' => ?_
  have marker : trim line = blockStart.toList := of_decide_eq_true start
  have endless : (line :: back).any isEnd = false := by
    simpa [isEnd_of_isStart start] using open'
  rw [Keeps, whole] at kept
  have tail := ((owed_of_endless ends front start endless).map trimEnd).trans kept
  have alone : (lines (block [])).map trimEnd = [blockStart.toList, blockEnd.toList] := by decide
  rw [lines_render, List.map_append, alone] at tail
  have new := sublist_of_not_mem tail fun mem => by
    obtain ⟨above, mem, same⟩ := List.mem_map.mp mem
    refine trim_ne_start_of_above mem ?_
    rw [← trim_trimEnd, same, trim_trimEnd, marker]
  -- nothing but the block's own start line can stand for it, and only the end line comes after
  have noEnd : ∀ l ∈ line :: back, trimEnd l ≠ blockEnd.toList := fun l mem =>
    trimEnd_ne_end_of_not_isEnd (List.any_eq_false.mp endless l mem)
  rcases List.cons_sublist_cons'.mp new with new | ⟨same, new⟩
  · have last := List.mem_singleton.mp (new.subset List.mem_cons_self)
    exact absurd last (noEnd line List.mem_cons_self)
  · refine ⟨same, List.any_eq_false.mpr fun l mem busy => ?_⟩
    have last := new.subset (List.mem_map_of_mem (List.mem_filter.mpr ⟨mem, busy⟩))
    exact noEnd l (List.mem_cons_of_mem _ mem) (List.mem_singleton.mp last)

/-- A rendered list shows all lines but blank ones and those between a start line and a later end line,
whatever the packages, exactly if each start line of the template is closed. It then shows even those
that no single block holds. -/
theorem keeps_lines_iff (template : String) :
    ((∀ names, Keeps enclosed template names) ↔ Closed (lines template.toList)) ∧
      ((∀ names, Keeps inBlock template names) ↔ Closed (lines template.toList)) := by
  refine ⟨⟨fun kept => ?_, fun closed names => ?_⟩, fun kept => ?_, keeps_of_closed⟩
  · exact closed_of_keeps (fun _ _ _ h => (Bool.and_eq_true_iff.mp h).2) (kept [])
  · exact ((owed_enclosed_sublist _).map trimEnd).trans (keeps_of_closed closed names)
  · exact closed_of_keeps (fun _ _ _ h => (Bool.and_eq_true_iff.mp h).2) (kept [])

/-- Nothing closes the block, and a line of the user's goes with it. -/
theorem line_lost_in_open_block :
    let template := "dist\n# >>> pkgsplit generated packages >>>\nlogs\n"
    ¬ Keeps enclosed template ["util"] ∧ "logs".toList ∈ owed enclosed (lines template.toList) ∧
      "logs".toList ∉ lines (render template ["util"]).toList := by
  refine ⟨?_, ?_, ?_⟩
  · unfold Keeps
    decide +kernel
  · decide +kernel
  · decide +kernel

end Apportion.IgnoreList
