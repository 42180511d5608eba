import Apportion.FileTree
import Apportion.Proofs.Path.Components

/-!
Trees of files, place by place. Each operation is told by what stands where afterwards (`get?_set`,
`get?_remove`, `get?_mkdirs`, `get?_put`), and keeps the rule that everything stands in a directory
(`Rooted.remove`, `Rooted.mkdirs`, `Rooted.put`).
-/
namespace Apportion.FileTree
variable {α : Type} {t : FileTree α} {k l : Key}

/-! ## What stands where -/

theorem get?_nil (t : FileTree α) : t.get? [] = some .directory := rfl

theorem get?_of_ne (h : k ≠ []) : t.get? k = (t.entries.find? fun e => e.1 == k).map (·.2) := by
  simp [get?, h]

theorem get?_set (t : FileTree α) (k l : Key) (node : Node α) :
    (t.set k node).get? l =
      if l = [] then some .directory else if l = k then some node else t.get? l := by
  by_cases hl : l = []
  · simp [hl, get?_nil]
  · rw [get?_of_ne hl, get?_of_ne hl]
    by_cases hk : l = k
    · have hk' : k ≠ [] := hk ▸ hl
      simp [set, hk, hk']
    · simp only [set, hl, hk, ↓reduceIte, List.find?_cons, beq_eq_false_iff_ne.mpr (Ne.symm hk),
        List.find?_filter]
      congr 2
      funext e
      by_cases he : e.1 = l
      · simp [he, hk]
      · simp [he]

theorem get?_remove (t : FileTree α) (k l : Key) :
    (t.remove k).get? l =
      if l = [] then some .directory else if k <+: l then none else t.get? l := by
  by_cases hl : l = []
  · simp [hl, get?_nil]
  · rw [get?_of_ne hl, get?_of_ne hl]
    by_cases hk : k <+: l
    · simp only [remove, hl, hk, ↓reduceIte, List.find?_filter, Option.map_eq_none_iff,
        List.find?_eq_none]
      intro e _
      by_cases he : e.1 = l
      · simp [he, List.isPrefixOf_iff_prefix, hk]
      · simp [he]
    · simp only [remove, hl, hk, ↓reduceIte, List.find?_filter]
      congr 2
      funext e
      by_cases he : e.1 = l
      · simp [he, ← Bool.not_eq_true, List.isPrefixOf_iff_prefix, hk]
      · simp [he]

theorem get?_remove_of_outside (t : FileTree α) (outside : ¬ k <+: l) :
    (t.remove k).get? l = t.get? l := by
  rw [get?_remove, if_neg outside]
  split
  · rename_i nil
    rw [nil, get?_nil]
  · rfl

theorem get?_mkdir (t : FileTree α) (k l : Key) :
    (t.mkdir k).get? l = if l = k then (t.get? l).or (some .directory) else t.get? l := by
  unfold mkdir
  split
  · rename_i present
    by_cases h : l = k
    · obtain ⟨node, e⟩ := Option.isSome_iff_exists.mp present
      simp [h, e]
    · simp [h]
  · rename_i absent
    rw [get?_set]
    by_cases hl : l = []
    · simp [hl, get?_nil]
    · by_cases h : l = k
      · subst h
        simp [hl, Option.not_isSome_iff_eq_none.mp absent]
      · simp [hl, h]

theorem get?_foldl_mkdir (t : FileTree α) (ks : List Key) (l : Key) :
    (ks.foldl mkdir t).get? l = if l ∈ ks then (t.get? l).or (some .directory) else t.get? l := by
  induction ks generalizing t with
  | nil => simp
  | cons k ks ih =>
    rw [List.foldl_cons, ih, get?_mkdir]
    by_cases h : l = k
    · by_cases hm : l ∈ ks
      · simp [h]
      · simp [h]
    · simp [h]

/-- The places above a place are its proper beginnings, the root left out. -/
theorem mem_above : l ∈ above k ↔ l ≠ [] ∧ l <+: k ∧ l ≠ k := by
  induction k generalizing l with
  | nil => simp [above]
  | cons name rest ih =>
    cases rest with
    | nil =>
      simp only [above, List.not_mem_nil, false_iff, not_and]
      intro ne h other
      exact other (h.eq_of_length_le (List.length_pos_iff.mpr ne))
    | cons next rest =>
      cases l with
      | nil => simp [above]
      | cons x xs =>
        simp only [above, List.mem_cons, List.cons.injEq, List.mem_map, ne_eq, reduceCtorEq,
          not_false_eq_true, List.cons_prefix_cons, true_and]
        constructor
        · rintro (⟨rfl, rfl⟩ | ⟨l, hl, rfl, rfl⟩)
          · simp
          · have := ih.mp hl
            exact ⟨⟨rfl, this.2.1⟩, fun e => this.2.2 e.2⟩
        · rintro ⟨⟨rfl, h⟩, ne⟩
          by_cases nil : xs = []
          · exact .inl ⟨rfl, nil⟩
          · exact .inr ⟨xs, ih.mpr ⟨nil, h, fun e => ne ⟨rfl, e⟩⟩, rfl, rfl⟩

theorem mem_above_or : l ∈ above k ++ [k] ↔ l = k ∨ (l ≠ [] ∧ l <+: k) := by
  rw [List.mem_append, List.mem_singleton, mem_above]
  constructor
  · rintro (⟨ne, h, -⟩ | h)
    · exact .inr ⟨ne, h⟩
    · exact .inl h
  · rintro (h | ⟨ne, h⟩)
    · exact .inr h
    · by_cases e : l = k
      · exact .inr e
      · exact .inl ⟨ne, h, e⟩

theorem get?_mkdirs (t : FileTree α) (k l : Key) :
    (t.mkdirs k).get? l = if l <+: k then (t.get? l).or (some .directory) else t.get? l := by
  rw [mkdirs, get?_foldl_mkdir]
  by_cases h : l <+: k
  · by_cases nil : l = []
    · simp [nil, get?_nil]
    · simp only [mem_above_or, ne_eq, nil, not_false_eq_true, h, and_self, or_true, ↓reduceIte]
  · have : l ≠ k := fun e => h (e ▸ List.prefix_refl _)
    simp only [mem_above_or, this, h, and_false, or_self, ↓reduceIte]

theorem get?_put (t : FileTree α) (k l : Key) (content : α) :
    (t.put k content).get? l =
      if l = [] then some .directory
      else if l = k then some (.file content)
      else if l <+: k then (t.get? l).or (some .directory) else t.get? l := by
  rw [put, get?_set, get?_foldl_mkdir]
  by_cases nil : l = []
  · simp [nil]
  · by_cases e : l = k
    · simp [e]
    · simp [nil, e, mem_above]

theorem file?_eq_some {content : α} : t.file? k = some content ↔ t.get? k = some (.file content) := by
  unfold file?
  cases h : t.get? k with
  | none => simp
  | some node => cases node <;> simp

theorem isDirectory_iff : t.isDirectory k = true ↔ t.get? k = some .directory := by
  unfold isDirectory
  cases h : t.get? k with
  | none => simp
  | some node => cases node <;> simp

theorem isFile_iff : t.isFile k = true ↔ ∃ content, t.get? k = some (.file content) := by
  simp only [isFile, Option.isSome_iff_exists, file?_eq_some]

theorem file?_ext {t' : FileTree α} (h : ∀ content,
    t'.get? k = some (.file content) ↔ t.get? k = some (.file content)) : t'.file? k = t.file? k := by
  refine Option.ext fun content => ?_
  rw [file?_eq_some, file?_eq_some, h]

theorem isDirectory_nil (t : FileTree α) : t.isDirectory [] = true := rfl

/-! ## Files and directories afterwards -/

theorem or_directory_eq_file {content : α} :
    (t.get? k).or (some .directory) = some (.file content) ↔ t.get? k = some (.file content) := by
  cases t.get? k <;> simp

theorem file?_mkdirs (t : FileTree α) (k l : Key) : (t.mkdirs k).file? l = t.file? l := by
  refine file?_ext fun content => ?_
  rw [get?_mkdirs]
  split
  · exact or_directory_eq_file
  · rfl

theorem isDirectory_mkdirs (h : (t.mkdirs k).isDirectory l = true) :
    t.isDirectory l = true ∨ l <+: k := by
  rw [isDirectory_iff, get?_mkdirs] at h
  split at h
  · rename_i above
    exact .inr above
  · exact .inl (isDirectory_iff.mpr h)

theorem file?_put (t : FileTree α) (content : α) (ne : l ≠ k) :
    (t.put k content).file? l = t.file? l := by
  refine file?_ext fun content' => ?_
  rw [get?_put]
  simp only [ne, ↓reduceIte]
  split
  · rename_i nil
    rw [nil, get?_nil]
  · split
    · exact or_directory_eq_file
    · rfl

theorem isDirectory_put {content : α} (h : (t.put k content).isDirectory l = true) :
    t.isDirectory l = true ∨ l <+: k := by
  rw [isDirectory_iff, get?_put] at h
  split at h
  · rename_i nil
    rw [nil]
    exact .inl t.isDirectory_nil
  · split at h
    · cases h
    · split at h
      · rename_i above
        exact .inr above
      · exact .inl (isDirectory_iff.mpr h)

theorem file?_remove (t : FileTree α) (outside : ¬ k <+: l) : (t.remove k).file? l = t.file? l := by
  rw [file?, file?, get?_remove_of_outside t outside]

theorem file?_remove_eq_none (h : t.file? l = none) (k : Key) : (t.remove k).file? l = none := by
  by_cases below : k <+: l
  · rw [file?, get?_remove]
    by_cases nil : l = []
    · simp [nil]
    · simp [nil, below]
  · rw [file?_remove t below, h]

theorem isDirectory_remove (h : (t.remove k).isDirectory l = true) :
    t.isDirectory l = true ∧ (l = [] ∨ ¬ k <+: l) := by
  rw [isDirectory_iff, get?_remove] at h
  split at h
  · rename_i nil
    rw [nil]
    exact ⟨t.isDirectory_nil, .inl rfl⟩
  · split at h
    · cases h
    · rename_i outside
      exact ⟨isDirectory_iff.mpr h, .inr outside⟩

/-! ## Everything stands in a directory -/

/-- Above whatever stands somewhere there are only directories. -/
def Rooted (t : FileTree α) : Prop :=
  ∀ k l, (t.get? k).isSome = true → l <+: k → l ≠ k → t.get? l = some .directory

theorem Rooted.remove (h : t.Rooted) (k : Key) : (t.remove k).Rooted := by
  intro l above present below ne
  rw [get?_remove] at present ⊢
  by_cases nil : above = []
  · simp [nil]
  · have hl : l ≠ [] := fun e => nil (List.prefix_nil.mp (e ▸ below))
    simp only [hl, ↓reduceIte] at present
    split at present
    · cases present
    · rename_i outside
      have : ¬ k <+: above := fun hk => outside (hk.trans below)
      simp only [nil, this, ↓reduceIte]
      exact h l above present below ne

/-- Directories made where no file stands in the way. -/
theorem Rooted.mkdirs (h : t.Rooted) (free : ∀ l ∈ above k ++ [k], t.isFile l = false) :
    (t.mkdirs k).Rooted := by
  have free' : ∀ l, l <+: k → ∀ c, t.get? l ≠ some (.file c) := by
    intro l hl c e
    by_cases nil : l = []
    · rw [nil, get?_nil] at e
      cases e
    · have := free l (mem_above_or.mpr (.inr ⟨nil, hl⟩))
      simp [isFile, file?_eq_some.mpr e] at this
  have dir : ∀ l, l <+: k → (t.get? l).or (some .directory) = some .directory := by
    intro l hl
    cases e : t.get? l with
    | none => rfl
    | some node =>
      cases node with
      | directory => rfl
      | file c => exact absurd e (free' l hl c)
  intro l above present below ne
  rw [get?_mkdirs] at present ⊢
  by_cases ha : above <+: k
  · simp [ha, dir above ha]
  · have hl : ¬ l <+: k := fun e => ha (below.trans e)
    simp only [hl, ha, ↓reduceIte] at present ⊢
    exact h l above present below ne

/-- A file put where no directory stands and no file stands in the way. -/
theorem Rooted.put (h : t.Rooted) (nodir : t.isDirectory k = false)
    (free : ∀ l ∈ above k, t.isFile l = false) (content : α) : (t.put k content).Rooted := by
  have leaf : ∀ l, (t.get? l).isSome = true → k <+: l → l = k := by
    intro l present below
    by_cases e : k = l
    · exact e.symm
    · have := isDirectory_iff.mpr (h l k present below e)
      rw [this] at nodir
      cases nodir
  intro l above present below ne
  rw [get?_put] at present ⊢
  by_cases nil : above = []
  · simp [nil]
  · have hl : l ≠ [] := fun e => nil (List.prefix_nil.mp (e ▸ below))
    have hak : above ≠ k := by
      rintro rfl
      simp only [hl, Ne.symm ne, ↓reduceIte] at present
      split at present
      · rename_i hlk
        exact ne (below.eq_of_length_le hlk.length_le)
      · exact ne (leaf l present below).symm
    simp only [nil, hak, ↓reduceIte]
    by_cases ha : above <+: k
    · simp only [ha, ↓reduceIte]
      have := free above (mem_above.mpr ⟨nil, ha, hak⟩)
      cases e : t.get? above with
      | none => rfl
      | some node =>
        cases node with
        | directory => rfl
        | file c => simp [isFile, file?_eq_some.mpr e] at this
    · have hlk : ¬ l <+: k := fun e => ha (below.trans e)
      have hne : l ≠ k := fun e => hlk (e ▸ List.prefix_refl _)
      simp only [hl, hne, hlk, ha, ↓reduceIte] at present ⊢
      exact h l above present below ne

/-- Below what is no directory there is nothing. -/
theorem Rooted.get?_below (h : t.Rooted) (hk : t.isDirectory k = false) (below : k <+: l)
    (ne : l ≠ k) : t.get? l = none := by
  cases e : t.get? l with
  | none => rfl
  | some node =>
    have := h l k (by rw [e]; rfl) below (Ne.symm ne)
    rw [isDirectory_iff.mpr this] at hk
    cases hk

/-- A tree as file systems keep them: everything stands in a directory, under proper names. -/
structure WellFormed (t : FileTree α) : Prop where
  rooted : t.Rooted
  named : ∀ k, (t.get? k).isSome = true → ∀ s ∈ k, IsName s

theorem get?_isSome_of_mem {e : Key × Node α} (h : e ∈ t.entries) : (t.get? e.1).isSome = true := by
  unfold get?
  split
  · rfl
  · simp only [Option.isSome_map, List.find?_isSome, beq_iff_eq]
    exact ⟨e, h, rfl⟩

theorem exists_mem_of_get? {node : Node α} (hk : k ≠ []) (h : t.get? k = some node) :
    (k, node) ∈ t.entries := by
  rw [get?_of_ne hk, Option.map_eq_some_iff] at h
  obtain ⟨e, found, rfl⟩ := h
  have := List.find?_some found
  rw [← beq_iff_eq.mp this]
  exact List.mem_of_find?_eq_some found

/-- A tree is well formed if each of its entries is. -/
theorem wellFormed_of_entries
    (named : ∀ e ∈ t.entries, ∀ s ∈ e.1, IsName s)
    (rooted : ∀ e ∈ t.entries, ∀ l ∈ above e.1, t.isDirectory l = true) : t.WellFormed := by
  have entry : ∀ k, k ≠ [] → (t.get? k).isSome = true → ∃ node, (k, node) ∈ t.entries := by
    intro k nil present
    obtain ⟨node, e⟩ := Option.isSome_iff_exists.mp present
    exact ⟨node, exists_mem_of_get? nil e⟩
  refine ⟨fun k l present below ne => ?_, fun k present s hs => ?_⟩
  · by_cases nil : l = []
    · rw [nil, get?_nil]
    · have hk : k ≠ [] := fun e => nil (List.prefix_nil.mp (e ▸ below))
      obtain ⟨node, mem⟩ := entry k hk present
      exact isDirectory_iff.mp (rooted _ mem l (mem_above.mpr ⟨nil, below, ne⟩))
  · obtain ⟨node, mem⟩ := entry k (List.ne_nil_of_mem hs) present
    exact named _ mem s hs

end Apportion.FileTree
