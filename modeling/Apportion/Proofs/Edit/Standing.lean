import Apportion.Proofs.Edit.Buffer
import Mathlib.Data.List.Pairwise

/-!
What stands at a range. An edit that puts in what stands in its range already changes nothing, so that
such edits can be added to others that leave their ranges alone (`Spliced.with_kept`). So a text that
was edited at some of several ranges is told by what stands at each of them
(`Spliced.exists_standing`).
-/
namespace Apportion
open Text

def ByteRange.textIn (r : ByteRange) (text : String) : String :=
  String.ofList ((((splitAtByte r.start text.toList).bind fun cut =>
    splitAtByte r.length cut.2).map (·.1)).getD [])

theorem ByteRange.Fits.textIn {r : ByteRange} {text : String} (h : r.Fits text.toList) :
    ∃ front back, text.toList = front ++ (r.textIn text).toList ++ back ∧
      byteLength front = r.start ∧ byteLength (front ++ (r.textIn text).toList) = r.stop := by
  have forward := h.forward
  obtain ⟨⟨front, rest⟩, cut⟩ := Option.isSome_iff_exists.mp h.starts
  obtain ⟨whole, start⟩ := of_splitAtByte cut
  have stops := h.stops
  rw [whole] at stops
  obtain ⟨old, back, cut'⟩ := splitAtByte_of_isBoundary stops (by omega)
  obtain ⟨rfl, length⟩ := of_splitAtByte cut'
  have same : (r.textIn text).toList = old := by
    rw [start] at cut'
    simp [ByteRange.textIn, cut, ByteRange.length, cut']
  refine ⟨front, back, by rw [same, whole, List.append_assoc], start, ?_⟩
  rw [same, byteLength_append]
  omega

/-- A stretch that is replaced by itself can be cut out between other edits. -/
theorem CutAt.with_kept {offset : Nat} {text front old back : List Char} {edits : List TextEdit}
    {stretches : List Stretch} (h : CutAt offset text edits stretches) {e : TextEdit}
    (whole : text = front ++ old ++ back) (starts : offset + byteLength front = e.range.start)
    (stops : e.range.start + byteLength old = e.range.stop) (same : e.replacement.toList = old)
    (apart : ∀ f ∈ edits, e.range.Before f.range ∨ f.range.Before e.range) :
    ∃ ordered pieces, ordered.Perm (e :: edits) ∧ CutAt offset text ordered pieces ∧
      pieces.flatMap Stretch.rendered = stretches.flatMap Stretch.rendered := by
  induction h generalizing front with
  | rest offset text =>
    subst whole
    exact ⟨[e], _, .refl _, .edit starts stops (.rest _ back), by simp [Stretch.rendered, same]⟩
  | @edit offset before gone rest f edits stretches starts' stops' later ih =>
    rcases apart f List.mem_cons_self with left | right
    · -- the range stands in the text before the first edit
      have le : byteLength (front ++ old) ≤ byteLength before := by
        have := left.2
        rw [byteLength_append]
        omega
      rw [List.append_assoc] at whole
      obtain ⟨more, rfl, rfl⟩ := eq_append_of_byteLength_le whole.symm le
      have next : e.range.stop + byteLength more = f.range.start := by
        simp only [byteLength_append] at starts'
        omega
      have cut := CutAt.edit starts stops (CutAt.edit next stops' later)
      refine ⟨e :: f :: edits, .kept front :: .replaced old e.replacement.toList :: .kept more ::
        .replaced gone f.replacement.toList :: stretches, .refl _, ?_, ?_⟩
      · simpa only [List.append_assoc] using cut
      · simp [Stretch.rendered, same]
    · -- it stands behind this edit, in what is cut by the others
      have le : byteLength (before ++ gone) ≤ byteLength front := by
        have := right.2
        rw [byteLength_append]
        omega
      rw [List.append_assoc front] at whole
      obtain ⟨more, rfl, rfl⟩ := eq_append_of_byteLength_le whole le
      have start : f.range.stop + byteLength more = e.range.start := by
        simp only [byteLength_append] at starts
        omega
      obtain ⟨ordered, pieces, perm, cut, rendered⟩ := ih (List.append_assoc _ _ _).symm start
        fun g hg => apart g (List.mem_cons_of_mem f hg)
      refine ⟨f :: ordered, _, (perm.cons f).trans (.swap e f edits), .edit starts' stops' cut, ?_⟩
      simp only [List.flatMap_cons, rendered]

/-- An edit that puts in what stands in its range changes nothing. -/
theorem Spliced.with_kept {text result : String} {edits : List TextEdit}
    (h : Spliced text edits result) {r : ByteRange} (fits : r.Fits text.toList)
    (apart : ∀ f ∈ edits, r.overlaps f.range = false)
    (forward : ∀ f ∈ edits, f.range.start ≤ f.range.stop) :
    Spliced text (⟨r, r.textIn text⟩ :: edits) result := by
  obtain ⟨ordered, stretches, perm, cut, rfl⟩ := h
  obtain ⟨front, back, whole, start, stop⟩ := fits.textIn
  rw [byteLength_append] at stop
  have clear : ∀ f ∈ ordered, r.Before f.range ∨ f.range.Before r := fun f hf => by
    have hf := perm.mem_iff.mp hf
    exact (ByteRange.overlaps_eq_false_iff fits.forward (forward f hf)).mp (apart f hf)
  obtain ⟨ordered', pieces, perm', cut', rendered⟩ := cut.with_kept (e := ⟨r, r.textIn text⟩) whole
    (by simpa using start) (by simp only; omega) rfl clear
  exact ⟨ordered', pieces, perm'.trans (perm.cons _), cut', by rw [rendered]⟩

/-- So do what stands in several ranges, beside each other and the edits. -/
theorem Spliced.with_all_kept {text result : String} {edits : List TextEdit} {ranges : List ByteRange}
    (h : Spliced text edits result) (fits : ∀ r ∈ ranges, r.Fits text.toList)
    (apart : ranges.Pairwise fun r r' => r.overlaps r' = false)
    (clear : ∀ r ∈ ranges, ∀ e ∈ edits, r.overlaps e.range = false)
    (forward : ∀ e ∈ edits, e.range.start ≤ e.range.stop) :
    Spliced text (ranges.map (fun r => ⟨r, r.textIn text⟩) ++ edits) result := by
  induction ranges with
  | nil => exact h
  | cons r ranges ih =>
    obtain ⟨first, apart⟩ := List.pairwise_cons.mp apart
    have rest := ih (fun r' hr => fits r' (List.mem_cons_of_mem r hr)) apart
      fun r' hr => clear r' (List.mem_cons_of_mem r hr)
    refine rest.with_kept (fits r List.mem_cons_self) (fun e he => ?_) fun e he => ?_ <;>
      rcases List.mem_append.mp he with he | he
    · obtain ⟨r', hr, rfl⟩ := List.mem_map.mp he
      exact first r' hr
    · exact clear r List.mem_cons_self e he
    · obtain ⟨r', hr, rfl⟩ := List.mem_map.mp he
      exact (fits r' (List.mem_cons_of_mem r hr)).forward
    · exact forward e he

/-- What is there for some elements, and what is put for the others. -/
theorem perm_map_getD {α β : Type} (f : α → Option β) (g : α → β) (l : List α) :
    ((l.filter fun a => (f a).isNone).map g ++ l.filterMap f).Perm
      (l.map fun a => (f a).getD (g a)) := by
  induction l with
  | nil => exact .refl _
  | cons a l ih =>
    cases h : f a with
    | none => simpa [h] using ih
    | some b => simpa [h] using List.perm_middle.trans (ih.cons b)

/-- Of two edits for each element at most one is there. -/
theorem perm_filterMap_or {α β : Type} {f g : α → Option β} {l : List α}
    (once : ∀ a ∈ l, f a = none ∨ g a = none) :
    (l.filterMap f ++ l.filterMap g).Perm (l.filterMap fun a => (f a).or (g a)) := by
  induction l with
  | nil => exact .refl _
  | cons a l ih =>
    have rest := ih fun b hb => once b (List.mem_cons_of_mem a hb)
    cases hf : f a with
    | some b =>
      have none : g a = none := (once a List.mem_cons_self).resolve_left (by simp [hf])
      simpa [hf, none] using rest
    | none =>
      cases hg : g a with
      | none => simpa [hf, hg] using rest
      | some b => simpa [hf, hg] using List.perm_middle.trans (rest.cons b)

/-- A text that is edited at some of several ranges has something stand at each of them: what was put
in, or what stood there before. -/
theorem Spliced.exists_standing {α : Type} {text result : String} {places : List α}
    {range : α → ByteRange} {edit : α → Option TextEdit}
    (h : Spliced text (places.filterMap edit) result)
    (fits : ∀ a ∈ places, (range a).Fits text.toList)
    (apart : places.Pairwise fun a b => (range a).overlaps (range b) = false)
    (own : ∀ a ∈ places, ∀ e, edit a = some e → e.range = range a) :
    ∃ standing : α → String, Spliced text (places.map fun a => ⟨range a, standing a⟩) result ∧
      ∀ a ∈ places, standing a = ((edit a).map (·.replacement)).getD ((range a).textIn text) := by
  have owned : ∀ e ∈ places.filterMap edit, ∃ a ∈ places, edit a = some e ∧ e.range = range a := by
    intro e he
    obtain ⟨a, ha, made⟩ := List.mem_filterMap.mp he
    exact ⟨a, ha, made, own a ha e made⟩
  have symmetric : Std.Symm fun a b => (range a).overlaps (range b) = false :=
    ⟨fun a b clear => by rw [ByteRange.overlaps_comm, clear]⟩
  -- the ranges without an edit are kept
  have unedited : Spliced text (((places.filter fun a => (edit a).isNone).map range).map
      (fun r => ⟨r, r.textIn text⟩) ++ places.filterMap edit) result := by
    refine h.with_all_kept (fun r hr => ?_) ?_ (fun r hr e he => ?_) fun e he => ?_
    · obtain ⟨a, ha, rfl⟩ := List.mem_map.mp hr
      exact fits a (List.mem_filter.mp ha).1
    · exact List.pairwise_map.mpr (apart.sublist List.filter_sublist)
    · obtain ⟨a, ha, rfl⟩ := List.mem_map.mp hr
      obtain ⟨ha, none⟩ := List.mem_filter.mp ha
      obtain ⟨b, hb, made, same⟩ := owned e he
      rw [same]
      refine apart.forall ha hb ?_
      rintro rfl
      rw [made] at none
      cases none
    · obtain ⟨b, hb, -, same⟩ := owned e he
      rw [same]
      exact (fits b hb).forward
  rw [List.map_map] at unedited
  obtain ⟨ordered, stretches, perm, cut, rfl⟩ := unedited
  refine ⟨fun a => ((edit a).map (·.replacement)).getD ((range a).textIn text),
    ⟨ordered, stretches, perm.trans ?_, cut, rfl⟩, fun _ _ => rfl⟩
  have each : places.map (fun a => (edit a).getD ⟨range a, (range a).textIn text⟩) =
      places.map fun a =>
        (⟨range a, ((edit a).map (·.replacement)).getD ((range a).textIn text)⟩ : TextEdit) := by
    refine List.map_congr_left fun a ha => ?_
    cases made : edit a with
    | none => rfl
    | some e =>
      have same := own a ha e made
      obtain ⟨r, s⟩ := e
      cases same
      rfl
  rw [← each]
  exact perm_map_getD edit (fun a => ⟨range a, (range a).textIn text⟩) places

/-- Edits behind the start of a text leave its first character. -/
theorem Spliced.head?_eq {text result : String} {edits : List TextEdit}
    (h : Spliced text edits result) (behind : ∀ e ∈ edits, 0 < e.range.start) :
    result.toList.head? = text.toList.head? := by
  obtain ⟨ordered, stretches, perm, cut, rfl⟩ := h
  generalize text.toList = text at cut
  cases cut with
  | rest => simp [Stretch.rendered]
  | @edit _ before old rest e edits stretches starts stops later =>
    have start := behind e (perm.mem_iff.mp List.mem_cons_self)
    cases before with
    | nil =>
      rw [← starts] at start
      cases start
    | cons c before => simp [Stretch.rendered]

end Apportion
