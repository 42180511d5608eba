import Apportion.Proofs.PositionMap.Compose

/-!
Lines as they come back from their text. Reading puts every line in order and keeps segments of one
column as they follow each other. This says what each line becomes (`StablySorted.unique`), so that
lines in order come back unchanged, and what has been read once is read again
(`codec_roundTrip`).
-/
namespace Apportion.PositionMap

/-- A line put in order of columns, the segments of each column in the order they had. -/
structure StablySorted (line sorted : List Segment) : Prop where
  perm : sorted.Perm line
  ordered : sorted.Pairwise fun s t => s.column ≤ t.column
  stable : ∀ column, sorted.filter (fun s => s.column = column) =
    line.filter (fun s => s.column = column)

theorem StablySorted.refl {line : List Segment}
    (ordered : line.Pairwise fun s t => s.column ≤ t.column) : StablySorted line line :=
  ⟨.refl line, ordered, fun _ => rfl⟩

/-- Two lines in order are one line if they have the same segments in every column. -/
theorem eq_of_filter_column {first second : List Segment}
    (sorted : first.Pairwise fun s t => s.column ≤ t.column)
    (sorted' : second.Pairwise fun s t => s.column ≤ t.column)
    (same : ∀ column, first.filter (fun s => s.column = column) =
      second.filter (fun s => s.column = column)) : first = second := by
  induction first generalizing second with
  | nil =>
    refine (List.eq_nil_iff_forall_not_mem.mpr fun s hs => ?_).symm
    have none : s ∈ ([] : List Segment).filter (fun t => t.column = s.column) := by
      rw [same s.column]
      simpa using hs
    cases none
  | cons s first ih =>
    cases second with
    | nil =>
      have none := same s.column
      simp at none
    | cons t second =>
      obtain ⟨least, later⟩ := List.pairwise_cons.mp sorted
      obtain ⟨least', later'⟩ := List.pairwise_cons.mp sorted'
      have mem (column : UInt32) (u : Segment) : (u ∈ s :: first ∧ u.column = column) ↔
          u ∈ t :: second ∧ u.column = column := by
        have := congrArg (u ∈ ·) (same column)
        simpa only [List.mem_filter, decide_eq_true_eq, eq_iff_iff] using this
      -- both begin with a segment of the least column
      have le : t.column ≤ s.column := by
        rcases List.mem_cons.mp ((mem s.column s).mp ⟨List.mem_cons_self, rfl⟩).1 with e | tail
        · exact e ▸ UInt32.le_refl _
        · exact least' s tail
      have ge : s.column ≤ t.column := by
        rcases List.mem_cons.mp ((mem t.column t).mpr ⟨List.mem_cons_self, rfl⟩).1 with e | tail
        · exact e ▸ UInt32.le_refl _
        · exact least t tail
      have level : s.column = t.column := UInt32.le_antisymm ge le
      have heads := same s.column
      rw [List.filter_cons_of_pos (by simp), List.filter_cons_of_pos (by simp [level])] at heads
      obtain ⟨rfl, -⟩ := List.cons.inj heads
      have rest : first = second := ih later later' fun column => by
        have all := same column
        by_cases here : s.column = column
        · simpa [here] using all
        · simpa [here] using all
      rw [rest]

theorem StablySorted.unique {line sorted sorted' : List Segment} (h : StablySorted line sorted)
    (h' : StablySorted line sorted') : sorted = sorted' :=
  eq_of_filter_column h.ordered h'.ordered fun column => (h.stable column).trans (h'.stable column).symm

theorem stablySorted_mergeSort (line : List Segment) :
    StablySorted line (line.mergeSort Segment.notAfter) := by
  have perm := List.mergeSort_perm line Segment.notAfter
  refine ⟨perm, ?_, fun column => ?_⟩
  · refine (List.pairwise_mergeSort notAfter_trans notAfter_total line).imp fun {s t} h => ?_
    simpa [Segment.notAfter] using h
  · have inOrder : (line.filter fun s => s.column = column).Pairwise
        fun s t => s.notAfter t = true := by
      refine List.pairwise_of_forall_mem_list fun s hs t ht => ?_
      have hs : s.column = column := by simpa using (List.mem_filter.mp hs).2
      have ht : t.column = column := by simpa using (List.mem_filter.mp ht).2
      simp [Segment.notAfter, hs, ht]
    have kept := (List.sublist_mergeSort notAfter_trans notAfter_total inOrder
      List.filter_sublist).filter fun s => decide (s.column = column)
    rw [List.filter_filter] at kept
    simp only [Bool.and_self] at kept
    exact (kept.eq_of_length (perm.filter _).length_eq.symm).symm

theorem map_mergeSort_of_ordered {lines : Lines}
    (ordered : ∀ line ∈ lines, line.Pairwise fun s t => s.column ≤ t.column) :
    lines.map (fun line => line.mergeSort Segment.notAfter) = lines := by
  refine (List.map_congr_left fun line hl => ?_).trans (List.map_id lines)
  exact (stablySorted_mergeSort line).unique (.refl (ordered line hl))

theorem ne_nil_of_decode {text : String} {lines : Lines} (h : decode text = .ok lines) :
    lines ≠ [] := by
  rintro rfl
  unfold decode at h
  cases texts : Text.split ';' text.toList with
  | nil => exact Text.split_ne_nil _ _ texts
  | cons line rest =>
    rw [texts, readLines] at h
    split at h
    · cases h
    · obtain ⟨lines, -, e⟩ := Except.map_eq_ok.mp h
      cases e

/-- Lines that are written are read with each line put in order, and as they were if they are in
order. What has been read from a text is read again from the text it is written as. -/
theorem codec_roundTrip :
    (∀ lines : Lines, lines ≠ [] → ∃ decoded, decode (encode lines) = .ok decoded ∧
      List.Forall₂ StablySorted lines decoded ∧
      ((∀ line ∈ lines, line.Pairwise fun s t => s.column ≤ t.column) → decoded = lines)) ∧
    ∀ text lines, decode text = .ok lines → decode (encode lines) = .ok lines := by
  constructor
  · intro lines ne
    refine ⟨_, decode_encode ne, ?_, map_mergeSort_of_ordered⟩
    rw [List.forall₂_map_right_iff]
    exact List.forall₂_same.mpr fun line _ => stablySorted_mergeSort line
  · intro text lines h
    rw [decode_encode (ne_nil_of_decode h), map_mergeSort_of_ordered (ordered_of_readLines h)]

theorem codec_roundTrip_twoLines :
    decode (encode [[⟨4, some ⟨1, 2, 3, some 9⟩⟩, ⟨4, none⟩], [⟨0, some ⟨0, 7, 0, none⟩⟩]]) =
      .ok [[⟨4, some ⟨1, 2, 3, some 9⟩⟩, ⟨4, none⟩], [⟨0, some ⟨0, 7, 0, none⟩⟩]] := by
  obtain ⟨decoded, read, -, same⟩ := codec_roundTrip.1
    [[⟨4, some ⟨1, 2, 3, some 9⟩⟩, ⟨4, none⟩], [⟨0, some ⟨0, 7, 0, none⟩⟩]] (by simp)
  rw [read, same (by decide)]

end Apportion.PositionMap
