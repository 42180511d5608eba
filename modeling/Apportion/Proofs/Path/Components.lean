import Apportion.Path

/-!
How the components of a path come from its text. Proved here: a relative path is joined by appending
its steps (`components_join`); a name is a path of one component, and every name among the components
of a path is one (`components_name`, `isName_of_mem`); what is left below a path, put after that
path, gives the whole back (`components_of_stripStart`).
-/
namespace Apportion
open Text

/-- A text that stands for itself as the only component of a path. -/
def IsName (s : String) : Prop := s ≠ "" ∧ s ≠ "." ∧ s ≠ ".." ∧ '/' ∉ s.toList

instance (s : String) : Decidable (IsName s) := inferInstanceAs (Decidable (_ ∧ _ ∧ _ ∧ _))

/-! ## Segments -/

theorem Text.split_append_sep (sep : Char) (s t : List Char) :
    split sep (s ++ sep :: t) = split sep s ++ split sep t := by
  induction s with
  | nil => simp [split]
  | cons c cs ih =>
    by_cases h : c = sep
    · simp [split, h, ih]
    · simp only [List.cons_append, split, h, ↓reduceIte, ih]
      cases hs : split sep cs with
      | nil => exact absurd hs (split_ne_nil sep cs)
      | cons piece pieces => simp

theorem Text.join_concat (sep last : List Char) (pieces : List (List Char)) :
    join sep (pieces ++ [last]) = pieces.flatMap (· ++ sep) ++ last := by
  induction pieces with
  | nil => rfl
  | cons piece pieces ih =>
    rw [List.cons_append, join_cons (by simp), ih, List.flatMap_cons, List.append_assoc (piece ++ sep)]

namespace Component

theorem name_injective : Function.Injective name := fun _ _ e => name.inj e

theorem ofSegment_name {s : String} (h : IsName s) : ofSegment s.toList = some (name s) := by
  obtain ⟨ne, dot, dots, -⟩ := h
  have e₁ : s.toList ≠ [] := by simpa using ne
  have e₂ : s.toList ≠ ['.'] := fun e => dot (String.toList_inj.mp e)
  have e₃ : s.toList ≠ ['.', '.'] := fun e => dots (String.toList_inj.mp e)
  simp [ofSegment, e₁, e₂, e₃]

theorem isName_of_ofSegment {segment : List Char} {s : String} (slash : '/' ∉ segment)
    (h : ofSegment segment = some (name s)) : IsName s := by
  unfold ofSegment at h
  split at h
  · cases h
  · rename_i idle
    split at h
    · cases h
    · rename_i dots
      cases h
      simp only [not_or] at idle
      refine ⟨fun e => idle.1 ?_, fun e => idle.2 ?_, fun e => dots ?_, by simpa using slash⟩
      · simpa using congrArg String.toList e
      · simpa using congrArg String.toList e
      · simpa using congrArg String.toList e

/-- A segment is never the root nor a leading dot. -/
theorem ofSegment_cases {segment : List Char} {c : Component} (h : ofSegment segment = some c) :
    c = parent ∨ ∃ s, c = name s := by
  unfold ofSegment at h
  split at h
  · cases h
  · split at h
    · exact .inl (Option.some.inj h).symm
    · exact .inr ⟨_, (Option.some.inj h).symm⟩

end Component

namespace Path

/-- What the segments of a path stand for, its front left out. -/
def steps (p : Path) : List Component := p.segments.filterMap Component.ofSegment

theorem segments_ne_nil (p : Path) : p.segments ≠ [] := split_ne_nil _ _

theorem text_eq_nil_of_segments {p : Path} (h : p.segments = [[]]) : p.text.toList = [] := by
  have := join_split '/' p.text.toList
  rw [show split '/' p.text.toList = [[]] from h] at this
  exact this.symm

theorem slash_not_mem_segments (p : Path) : ∀ s ∈ p.segments, '/' ∉ s :=
  not_mem_of_mem_split _ _

theorem components_of_start {p : Path} {c : Component} (h : p.start = some c) :
    p.components = c :: p.body.filterMap Component.ofSegment := by
  simp [components, h]

theorem components_of_start_none {p : Path} (h : p.start = none) :
    p.components = p.body.filterMap Component.ofSegment := by
  simp [components, h]

theorem components_eq_steps {p : Path} (h : p.start = none) : p.components = p.steps := by
  simp [components, body, steps, h]

theorem start_eq (p : Path) : p.start =
    if p.segments.head? = some [] ∧ p.segments.length ≠ 1 then some .root
    else if p.segments.head? = some ['.'] then some .current else none := by
  unfold start
  split
  · rename_i h; simp [h]
  · rename_i h; simp [h]
  · rename_i root current
    cases hs : p.segments with
    | nil => rfl
    | cons x rest =>
      have hx : x = [] → rest = [] := by
        rintro rfl
        cases rest with
        | nil => rfl
        | cons y ys => exact absurd hs (root y ys)
      have hc : x ≠ ['.'] := by
        rintro rfl
        exact current rest hs
      simpa [hc] using hx

/-- Segments added at the end of a path leave its front alone. -/
theorem start_of_segments_append {p q : Path} {more : List (List Char)} (ne : p.segments ≠ [[]])
    (h : q.segments = p.segments ++ more) : q.start = p.start := by
  rw [start_eq, start_eq, h]
  cases hp : p.segments with
  | nil => exact absurd hp p.segments_ne_nil
  | cons x rest =>
    have hx : x = [] → rest ≠ [] := by
      rintro rfl rfl
      exact ne hp
    by_cases e : x = []
    · simp [e, hx e]
    · simp [e]

theorem components_of_segments_append {p q : Path} {more : List (List Char)}
    (ne : p.segments ≠ [[]]) (h : q.segments = p.segments ++ more) :
    q.components = p.components ++ more.filterMap Component.ofSegment := by
  have hs := start_of_segments_append ne h
  unfold components body
  rw [hs, h]
  split
  · rw [List.tail_append_of_ne_nil p.segments_ne_nil, List.filterMap_append, List.append_assoc]
  · rw [List.filterMap_append, List.append_assoc]

/-! ## Joining -/

theorem isAbsolute_eq_false {p : Path} (h : p.start = none) : p.isAbsolute = false := by
  simp [isAbsolute, h]

theorem components_of_text_empty {p : Path} (h : p.text = "") : p.components = [] := by
  obtain ⟨text⟩ := p
  subst h
  rfl

/-- The root is the only path that a single slash is cut from without leaving a path. -/
theorem components_join_slash {p q r : Path} {u : List Char} (hp : p.text.toList = u ++ ['/'])
    (hr : r.text.toList = u ++ '/' :: q.text.toList) : r.components = p.components ++ q.steps := by
  have sp : p.segments = split '/' u ++ [[]] := by
    simp only [segments, hp, split_append_sep]
    rfl
  have sr : r.segments = split '/' u ++ q.segments := by
    simp only [segments, hr, split_append_sep]
  by_cases hu : split '/' u = [[]]
  · have hp' : p.components = [.root] := by
      unfold components body start
      rw [sp, hu]
      rfl
    rw [hu] at sr
    rw [hp']
    unfold components body start
    rw [sr]
    cases hq : q.segments with
    | nil => exact absurd hq q.segments_ne_nil
    | cons x rest => simp [steps, hq]
  · have front : (⟨String.ofList u⟩ : Path).segments = split '/' u := by simp [segments]
    have ne : (⟨String.ofList u⟩ : Path).segments ≠ [[]] := by rwa [front]
    rw [components_of_segments_append ne (by rw [sr, front]),
      components_of_segments_append (q := p) ne (by rw [sp, front])]
    simp [steps, Component.ofSegment]

/-- A relative path below another: its steps come after the components of the other. A dot in front
is lost, unless nothing stands before it. -/
theorem components_join {p q : Path} (relative : q.isAbsolute = false)
    (front : p.text ≠ "" ∨ q.start = none) : (p.join q).components = p.components ++ q.steps := by
  unfold join
  simp only [relative, Bool.false_eq_true, ↓reduceIte, Bool.or_eq_true, beq_iff_eq]
  by_cases empty : p.text = ""
  · have e : (⟨p.text ++ q.text⟩ : Path) = q := by simp [empty]
    have nil : p.text.isEmpty = true := String.isEmpty_iff.mpr empty
    rw [if_pos (.inl nil), e, components_of_text_empty empty, List.nil_append]
    exact components_eq_steps (front.resolve_left (absurd empty))
  · have ne : p.text.isEmpty = false := by simpa [String.isEmpty_iff] using empty
    simp only [ne, Bool.false_eq_true, false_or]
    split
    · rename_i slash
      obtain ⟨u, hu⟩ := List.getLast?_eq_some_iff.mp slash
      exact components_join_slash hu (by simp [hu])
    · have hs : (⟨p.text ++ "/" ++ q.text⟩ : Path).segments = p.segments ++ q.segments := by
        simp [segments, split_append_sep]
      refine components_of_segments_append (fun e => empty ?_) hs
      exact String.toList_inj.mp (text_eq_nil_of_segments e)

theorem components_join_relative (p : Path) {q : Path} (h : q.start = none) :
    (p.join q).components = p.components ++ q.components := by
  rw [components_join (isAbsolute_eq_false h) (.inr h), components_eq_steps h]

/-! ## Names -/

theorem segments_name {s : String} (h : IsName s) : (Path.mk s).segments = [s.toList] :=
  split_eq_singleton h.2.2.2

theorem start_name {s : String} (h : IsName s) : (Path.mk s).start = none := by
  have dot : s.toList ≠ ['.'] := fun e => h.2.1 (String.toList_inj.mp e)
  simp [start_eq, segments_name h, dot]

theorem steps_name {s : String} (h : IsName s) : (Path.mk s).steps = [.name s] := by
  simp [steps, segments_name h, Component.ofSegment_name h]

theorem components_name {s : String} (h : IsName s) : (Path.mk s).components = [.name s] := by
  rw [components_eq_steps (start_name h), steps_name h]

theorem components_join_name (p : Path) {s : String} (h : IsName s) :
    (p.join ⟨s⟩).components = p.components ++ [.name s] := by
  rw [components_join_relative p (start_name h), components_name h]

theorem mem_steps {p : Path} {c : Component} (h : c ∈ p.steps) :
    c = .parent ∨ ∃ s, c = .name s ∧ IsName s := by
  obtain ⟨segment, mem, hc⟩ := List.mem_filterMap.mp h
  rcases Component.ofSegment_cases hc with rfl | ⟨s, rfl⟩
  · exact .inl rfl
  · exact .inr ⟨s, rfl, Component.isName_of_ofSegment (p.slash_not_mem_segments _ mem) hc⟩

theorem components_eq (p : Path) : ∃ more, p.components = p.start.toList ++ more ∧ more <:+ p.steps := by
  refine ⟨p.body.filterMap Component.ofSegment, rfl, ?_⟩
  unfold body steps
  split
  · exact (List.tail_suffix _).filterMap _
  · exact List.suffix_refl _

/-- Names among the components come from segments. -/
theorem name_mem_steps {p : Path} {s : String} (h : .name s ∈ p.components) : .name s ∈ p.steps := by
  obtain ⟨more, e, suffix⟩ := p.components_eq
  rw [e, List.mem_append] at h
  rcases h with h | h
  · have : p.start ≠ some (.name s) := by
      rw [start_eq]
      split
      · simp
      · split <;> simp
    exact absurd (by simpa using h) this
  · exact suffix.subset h

theorem isName_of_mem {p : Path} {s : String} (h : .name s ∈ p.components) : IsName s := by
  rcases mem_steps (name_mem_steps h) with e | ⟨t, e, ht⟩
  · cases e
  · cases e
    exact ht

theorem start_of_components_name {p : Path} {s : String} {more : List Component}
    (h : p.components = .name s :: more) : p.start = none := by
  cases hs : p.start with
  | none => rfl
  | some c =>
    rw [components_of_start hs, List.cons.injEq] at h
    rw [start_eq, h.1] at hs
    split at hs
    · cases hs
    · split at hs <;> cases hs

theorem of_fileName {p : Path} {s : String} (h : p.fileName = some s) :
    IsName s ∧ ∃ front, p.components = front ++ [.name s] := by
  unfold fileName at h
  split at h
  · rename_i t last
    cases h
    refine ⟨isName_of_mem (List.mem_of_getLast? last), List.getLast?_eq_some_iff.mp last⟩
  · cases h

/-! ## What lies below a path -/

theorem startsWith_iff {p q : Path} : p.startsWith q = true ↔ q.components <+: p.components :=
  List.isPrefixOf_iff_prefix

theorem isIdle_iff {segment : List Char} :
    isIdle segment = true ↔ Component.ofSegment segment = none := by
  simp [isIdle]

theorem filterMap_dropWhile_idle (body : List (List Char)) :
    (body.dropWhile isIdle).filterMap Component.ofSegment = body.filterMap Component.ofSegment := by
  induction body with
  | nil => rfl
  | cons s rest ih =>
    cases h : isIdle s
    · simp [List.dropWhile, h]
    · simp [List.dropWhile, h, ih, isIdle_iff.mp h]

theorem filterMap_dropEndWhile_idle (body : List (List Char)) :
    (dropEndWhile isIdle body).filterMap Component.ofSegment =
      body.filterMap Component.ofSegment := by
  simp [dropEndWhile, List.filterMap_reverse, filterMap_dropWhile_idle]

theorem dropEndWhile_isPrefix {α : Type} (f : α → Bool) (l : List α) : dropEndWhile f l <+: l := by
  have := List.dropWhile_suffix f (l := l.reverse)
  simpa [dropEndWhile, ← List.reverse_suffix] using this

theorem of_dropEndWhile {α : Type} {f : α → Bool} {l init : List α} {last : α}
    (h : dropEndWhile f l = init ++ [last]) : init <+: l ∧ f last = false := by
  have sub := h ▸ dropEndWhile_isPrefix f l
  refine ⟨(List.prefix_append init [last]).trans sub, ?_⟩
  have head := List.head?_dropWhile_not f l.reverse
  rw [← List.reverse_reverse (l.reverse.dropWhile f), ← dropEndWhile, h] at head
  simpa using head

/-- A path written from segments of which the first is neither empty nor a dot. -/
theorem ofParts_none {body : List (List Char)} (slash : ∀ s ∈ body, '/' ∉ s)
    (first : ∀ s, body.head? = some s → isIdle s = false) :
    (ofParts none body).start = none ∧
      (ofParts none body).components = body.filterMap Component.ofSegment := by
  cases body with
  | nil => exact ⟨rfl, rfl⟩
  | cons s rest =>
    have hs : (ofParts none (s :: rest)).segments = s :: rest := by
      simp [segments, ofParts, split_join (List.cons_ne_nil s rest) slash]
    have hi : s ≠ [] ∧ s ≠ ['.'] := by
      have := first s rfl
      refine ⟨?_, ?_⟩ <;> rintro rfl <;> exact absurd this (by decide)
    have start : (ofParts none (s :: rest)).start = none := by
      simp [start_eq, hs, hi]
    exact ⟨start, by rw [components_eq_steps start, steps, hs]⟩

/-- The path of what is left of a body when idle segments go at both ends. -/
theorem ofParts_trimmed {body : List (List Char)} (slash : ∀ s ∈ body, '/' ∉ s) :
    (ofParts none (dropEndWhile isIdle (body.dropWhile isIdle))).start = none ∧
      (ofParts none (dropEndWhile isIdle (body.dropWhile isIdle))).components =
        body.filterMap Component.ofSegment := by
  have sub := dropEndWhile_isPrefix isIdle (body.dropWhile isIdle)
  have slash' : ∀ s ∈ dropEndWhile isIdle (body.dropWhile isIdle), '/' ∉ s := fun s hs =>
    slash s ((List.dropWhile_suffix _).subset (sub.subset hs))
  have first : ∀ s, (dropEndWhile isIdle (body.dropWhile isIdle)).head? = some s →
      isIdle s = false := by
    intro s hs
    obtain ⟨more, e⟩ := sub
    have head : (body.dropWhile isIdle).head? = some s := by
      rw [← e, List.head?_append, hs]
      rfl
    have := List.head?_dropWhile_not isIdle body
    rw [head] at this
    simpa using this
  have := ofParts_none slash' first
  rw [filterMap_dropEndWhile_idle, filterMap_dropWhile_idle] at this
  exact this

theorem dropComponents_isSome (segments : List (List Char)) (cs : List Component) :
    (dropComponents segments cs).isSome = cs.isPrefixOf (segments.filterMap Component.ofSegment) := by
  induction segments generalizing cs with
  | nil => cases cs <;> rfl
  | cons s rest ih =>
    cases cs with
    | nil => rfl
    | cons c cs =>
      cases hs : Component.ofSegment s with
      | none => simp [dropComponents, hs, ih]
      | some d =>
        by_cases e : d = c
        · simp [dropComponents, hs, e, ih]
        · have e' : (c == d) = false := beq_false_of_ne (Ne.symm e)
          simp [dropComponents, hs, e, List.isPrefixOf, e']

theorem of_dropComponents {segments left : List (List Char)} {cs : List Component}
    (h : dropComponents segments cs = some left) : left <:+ segments ∧
      segments.filterMap Component.ofSegment = cs ++ left.filterMap Component.ofSegment := by
  induction segments generalizing cs with
  | nil =>
    cases cs with
    | nil => cases h; exact ⟨List.suffix_refl _, rfl⟩
    | cons c cs => cases h
  | cons s rest ih =>
    cases cs with
    | nil => cases h; exact ⟨List.suffix_refl _, rfl⟩
    | cons c cs =>
      simp only [dropComponents] at h
      split at h
      · rename_i idle
        have := ih h
        exact ⟨this.1.trans (List.suffix_cons _ _), by simp [idle, this.2]⟩
      · rename_i d hd
        split at h
        · rename_i e
          have := ih h
          exact ⟨this.1.trans (List.suffix_cons _ _), by simp [hd, e, this.2]⟩
        · cases h

theorem slash_not_mem_body (p : Path) : ∀ s ∈ p.body, '/' ∉ s := by
  intro s hs
  refine p.slash_not_mem_segments s ?_
  unfold body at hs
  split at hs
  · exact List.mem_of_mem_tail hs
  · exact hs

/-- A path written from the root or a leading dot, and segments after it. -/
theorem ofParts_some {c : Component} {body : List (List Char)} (slash : ∀ s ∈ body, '/' ∉ s)
    (hc : c = .root ∧ body ≠ [] ∨ c = .current) :
    (ofParts (some c) body).components = c :: body.filterMap Component.ofSegment := by
  rcases hc with ⟨rfl, ne⟩ | rfl
  · obtain ⟨s, rest, rfl⟩ := List.exists_cons_of_ne_nil ne
    have hs : (ofParts (some .root) (s :: rest)).segments = [] :: s :: rest := by
      simp only [segments, ofParts, String.toList_ofList]
      exact split_join (List.cons_ne_nil _ _) (by simpa using slash)
    simp [components, body, start_eq, hs]
  · have hs : (ofParts (some .current) body).segments = ['.'] :: body := by
      simp only [segments, ofParts, String.toList_ofList]
      exact split_join (List.cons_ne_nil _ _) (by simpa [Component.text] using slash)
    simp [components, Path.body, start_eq, hs]

/-- A path written with the beginning of its body; idle segments at the end mean nothing. -/
theorem components_ofParts {p : Path} {front : List (List Char)} (sub : front <+: p.body) :
    (ofParts p.start (dropEndWhile isIdle front)).components =
      p.start.toList ++ front.filterMap Component.ofSegment := by
  have sub' := (dropEndWhile_isPrefix isIdle front).trans sub
  have slash : ∀ s ∈ dropEndWhile isIdle front, '/' ∉ s := fun s hs =>
    p.slash_not_mem_body s (sub'.subset hs)
  rw [← filterMap_dropEndWhile_idle front]
  cases hs : p.start with
  | none =>
    have first : ∀ s, (dropEndWhile isIdle front).head? = some s → isIdle s = false := by
      intro s h
      have head : p.segments.head? = some s := by
        obtain ⟨more, e⟩ := sub'
        rw [← show p.body = p.segments by simp [body, hs], ← e, List.head?_append, h]
        rfl
      have single : s = [] → p.segments = [[]] := by
        rintro rfl
        rw [start_eq, head] at hs
        obtain ⟨rest, e⟩ := List.head?_eq_some_iff.mp head
        simp_all
      by_cases nil : s = []
      · rw [show p.body = [[]] by simp [body, start_eq, single nil], List.prefix_cons_iff] at sub
        rcases sub with rfl | ⟨more, rfl, sub⟩
        · cases h
        · rw [List.prefix_nil.mp sub] at h
          cases h
      · rw [start_eq, head] at hs
        have dot : s ≠ ['.'] := fun e => by simp [e] at hs
        simp [isIdle, Component.ofSegment, nil, dot]
        split <;> simp
    rw [(ofParts_none slash first).2]
    rfl
  | some c =>
    have kinds : c = .root ∨ c = .current := by
      rw [start_eq] at hs
      split at hs
      · exact .inl (Option.some.inj hs).symm
      · split at hs
        · exact .inr (Option.some.inj hs).symm
        · cases hs
    by_cases nil : c = .root ∧ dropEndWhile isIdle front = []
    · rw [nil.1, nil.2]
      rfl
    · refine ofParts_some slash ?_
      rcases kinds with h | h
      · exact .inl ⟨h, fun e => nil ⟨h, e⟩⟩
      · exact .inr h

theorem components_ofParts_self (p : Path) :
    (ofParts p.start (dropEndWhile isIdle p.body)).components = p.components :=
  components_ofParts (List.prefix_refl _)

/-- What is left of a path below another comes after it, and stands on its own unless the other says
nothing. -/
theorem components_of_stripStart {p q r : Path} (h : p.stripStart q = some r) :
    (q.components ≠ [] → r.start = none) ∧ p.components = q.components ++ r.components := by
  have key {cs : List Component} (h : (dropComponents p.body cs).map (fun body =>
      ofParts none (dropEndWhile isIdle (body.dropWhile isIdle))) = some r) :
      r.start = none ∧ p.body.filterMap Component.ofSegment = cs ++ r.components := by
    obtain ⟨left, hl, rfl⟩ := Option.map_eq_some_iff.mp h
    obtain ⟨suffix, e⟩ := of_dropComponents hl
    have := ofParts_trimmed fun s hs => p.slash_not_mem_body s (suffix.subset hs)
    exact ⟨this.1, by rw [e, this.2]⟩
  unfold stripStart at h
  split at h
  · rename_i nil
    cases h
    exact ⟨fun ne => absurd nil ne, by rw [components_ofParts_self, nil, List.nil_append]⟩
  · rename_i front c cs hf hq
    split at h
    · rename_i e
      have := key h
      exact ⟨fun _ => this.1, by rw [components_of_start hf, this.2, hq, e, List.cons_append]⟩
    · cases h
  · rename_i hs _
    have := key h
    exact ⟨fun _ => this.1, by rw [components_of_start_none hs, this.2]⟩

/-- There is something left of a path below another exactly if it starts with the other. -/
theorem stripStart_isSome (p q : Path) : (p.stripStart q).isSome = p.startsWith q := by
  unfold stripStart startsWith
  split
  · rename_i nil
    simp [nil]
  · rename_i front c cs hf hq
    rw [hq, components_of_start hf]
    by_cases e : c = front
    · simp [e, dropComponents_isSome]
    · have e' : (c == front) = false := beq_false_of_ne e
      simp [e, List.isPrefixOf, e']
  · rename_i hs _
    rw [components_of_start_none hs]
    simp [dropComponents_isSome]

/-- What comes after the components of another path is what is left. -/
theorem exists_stripStart {p q : Path} {more : List Component}
    (h : p.components = q.components ++ more) : ∃ r, p.stripStart q = some r ∧ r.components = more := by
  have below : p.startsWith q = true := by
    rw [startsWith_iff, h]
    exact List.prefix_append _ _
  rw [← stripStart_isSome] at below
  obtain ⟨r, strip⟩ := Option.isSome_iff_exists.mp below
  exact ⟨r, strip, List.append_cancel_left ((components_of_stripStart strip).2.symm.trans h)⟩

end Path
end Apportion
