import Apportion.Artifact
import Apportion.Proofs.Path.Appended
import Apportion.Proofs.Path.Stems

/-!
Tidy paths: absolute ones whose text is that of their normal form. Such a path is told by its
components, so that the map beside a tidy file is named like the file (`components_mapPath`), and what
lies there is a position map (`kind_mapPath`). However paths are spelled, different files have
different maps (`components_of_mapPath`).
-/
namespace Apportion

namespace Path

structure Tidy (p : Path) : Prop where
  absolute : p.isAbsolute = true
  normal : p.normalize = p

instance (p : Path) : Decidable p.Tidy :=
  decidable_of_iff (p.isAbsolute = true ∧ p.normalize.text = p.text)
    ⟨fun h => ⟨h.1, congrArg Path.mk h.2⟩, fun h => ⟨h.1, congrArg Path.text h.2⟩⟩

theorem tidy_normalize {p : Path} (h : p.isAbsolute = true) : p.normalize.Tidy :=
  ⟨(settled_normalize h).absolute, normalize_normalize p⟩

namespace Tidy
variable {p : Path}

theorem settled (h : p.Tidy) : p.Settled :=
  ⟨h.absolute, by rw [h.normal]; exact beq_iff.mpr rfl⟩

theorem eq_ofComponents (h : p.Tidy) : p = ofComponents p.components := by
  have e := h.normal
  rw [normalize, ← components_normalize, h.normal] at e
  exact e.symm

end Tidy

/-! ## Maps beside files -/

theorem isName_append_map {s : String} (h : '/' ∉ s.toList) : IsName (s ++ ".map") := by
  refine ⟨?_, ?_, ?_, ?_⟩
  any_goals
    intro e
    have := congrArg (fun t : String => t.toList.getLast?) e
    simp at this
  rw [toList_append_map, List.mem_append]
  exact fun mem => mem.elim h (by decide)

/-- A path ends in a text that comes first or after a slash. -/
def EndsIn (p : Path) (s : String) : Prop :=
  ∃ front : String, (front = "" ∨ front.toList.getLast? = some '/') ∧ p.text = front ++ s

namespace EndsIn
variable {p q : Path} {s : String}

theorem exists_join (h : p.EndsIn s) (slash : '/' ∉ s.toList) : ∃ dir : Path, p = dir.join ⟨s⟩ := by
  obtain ⟨front, ends, whole⟩ := h
  refine ⟨⟨front⟩, ?_⟩
  have none : (front.isEmpty || front.toList.getLast? == some '/') = true := by
    rcases ends with rfl | ends
    · rfl
    · simp [ends]
  rw [Path.join, isAbsolute_of_slash_free slash, none]
  exact congrArg Path.mk whole

/-- A path ends as what is joined to it. -/
theorem join (h : q.EndsIn s) (p : Path) (relative : q.isAbsolute = false) : (p.join q).EndsIn s := by
  obtain ⟨front, ends, whole⟩ := h
  have longer : ∀ more : String, (more = "" ∨ more.toList.getLast? = some '/') →
      (more ++ front = "" ∨ (more ++ front).toList.getLast? = some '/') := by
    rintro more (rfl | last)
    · simpa using ends
    · refine .inr ?_
      rcases ends with rfl | ends
      · simpa using last
      · rw [String.toList_append, List.getLast?_append, ends]
        rfl
  rw [Path.join, relative, whole]
  simp only [Bool.false_eq_true, ↓reduceIte, Bool.or_eq_true, beq_iff_eq, String.isEmpty_iff]
  split
  · rename_i before
    exact ⟨p.text ++ front, longer _ before, by rw [String.append_assoc]⟩
  · refine ⟨p.text ++ "/" ++ front, longer _ (.inr (by simp)), by simp only [String.append_assoc]⟩

end EndsIn

theorem components_mapPath_join (dir : Path) {s : String} (h : '/' ∉ s.toList) :
    (dir.join ⟨s⟩).mapPath.components = dir.components ++ [.name (s ++ ".map")] := by
  rw [mapPath, join_append dir h (by decide), components_join_name _ (isName_append_map h)]

/-- The map beside a file has the file's name, with a further extension, if the text ends in the name. -/
theorem components_mapPath_of_endsIn {p : Path} {front : List Component} {s : String}
    (ends : p.EndsIn s) (e : p.components = front ++ [.name s]) :
    p.mapPath.components = front ++ [.name (s ++ ".map")] := by
  have name : IsName s := isName_of_mem (p := p) (by simp [e])
  obtain ⟨dir, whole⟩ := ends.exists_join name.2.2.2
  rw [whole, components_join_name _ name] at e
  rw [whole, components_mapPath_join _ name.2.2.2, List.append_cancel_right e]

theorem components_mapPath {p : Path} (h : p.Tidy) {front : List Component} {s : String}
    (e : p.components = front ++ [.name s]) :
    p.mapPath.components = front ++ [.name (s ++ ".map")] := by
  have name : IsName s := isName_of_mem (p := p) (by simp [e])
  refine components_mapPath_of_endsIn ?_ e
  rw [h.eq_ofComponents, e, ofComponents_snoc]
  exact EndsIn.join ⟨"", .inl rfl, rfl⟩ _ (isAbsolute_of_slash_free name.2.2.2)

/-- A path ends in the text after its last slash. -/
theorem exists_endsIn (p : Path) : ∃ s : String, '/' ∉ s.toList ∧ p.EndsIn s := by
  by_cases slash : '/' ∈ p.text.toList
  · obtain ⟨after, before, e, free⟩ := List.eq_append_cons_of_mem (List.mem_reverse.mpr slash)
    refine ⟨String.ofList after.reverse, by simpa using free, String.ofList (before.reverse ++ ['/']),
      .inr (by simp), String.toList_inj.mp ?_⟩
    rw [← List.reverse_reverse p.text.toList, e]
    simp
  · exact ⟨p.text, slash, "", .inl rfl, by simp⟩

theorem text_of_components_nil {p : Path} (h : p.components = []) : p.text = "" := by
  have none : p.start = none := by
    cases hs : p.start with
    | none => rfl
    | some c => simp [components_of_start hs] at h
  rw [components_eq_steps none, steps] at h
  rw [start_eq] at none
  obtain ⟨x, rest, e⟩ := List.exists_cons_of_ne_nil p.segments_ne_nil
  have idle : x = [] ∨ x = ['.'] := by
    have first := (List.filterMap_eq_nil_iff.mp h) x (by simp [e])
    unfold Component.ofSegment at first
    split at first
    · assumption
    · split at first <;> cases first
  rw [e] at none
  rcases idle with rfl | rfl
  · have alone : rest = [] := by simpa using none
    exact String.toList_inj.mp (text_eq_nil_of_segments (by rw [e, alone]))
  · simp at none

/-- Different files have different maps beside them. -/
theorem components_of_mapPath {p q : Path} (h : p.mapPath.components = q.mapPath.components) :
    p.components = q.components := by
  obtain ⟨s, slash, ends⟩ := p.exists_endsIn
  obtain ⟨s', slash', ends'⟩ := q.exists_endsIn
  obtain ⟨dir, rfl⟩ := ends.exists_join slash
  obtain ⟨dir', rfl⟩ := ends'.exists_join slash'
  rw [components_mapPath_join _ slash, components_mapPath_join _ slash'] at h
  obtain ⟨above, last⟩ := List.append_inj' h rfl
  obtain rfl : s = s' := by simpa using last
  have relative := isAbsolute_of_slash_free slash
  by_cases empty : dir.text = ""
  · have empty' := text_of_components_nil (above ▸ components_of_text_empty empty)
    rw [join, join, empty, empty']
  · have ne' : dir'.text ≠ "" := fun e =>
      empty (text_of_components_nil (above.trans (components_of_text_empty e)))
    rw [components_join relative (.inl empty), components_join relative (.inl ne'), above]

/-! ## Kinds -/

theorem kind_congr {p q : Path} (h : p.components = q.components) :
    Kind.ofPath p = Kind.ofPath q := by
  simp [Kind.ofPath, extension, fileName, h]

theorem exists_fileName_of_kind {p : Path} (h : Kind.ofPath p ≠ .other) :
    ∃ s, p.fileName = some s := by
  cases hn : p.fileName with
  | some s => exact ⟨s, rfl⟩
  | none =>
    have other : Kind.ofPath p = .other := by simp [Kind.ofPath, extension, hn]
    exact absurd other h

theorem map_isSuffix_extensionOf {s : String} (h : s ≠ "") :
    ['.', 'm', 'a', 'p'] <:+ (extensionOf (s ++ ".map")).toList := by
  rcases extensionOf_append_map h with e | e
  · rw [e]
    exact List.suffix_refl _
  · rw [e, toList_append_map]
    exact List.suffix_append _ _

theorem kind_of_map_name {p : Path} {s : String} (ne : s ≠ "")
    (named : p.fileName = some (s ++ ".map")) : Kind.ofPath p = .positionMap := by
  obtain ⟨more, ends⟩ := map_isSuffix_extensionOf ne
  have last : ∀ l : List String, l.all (fun e => e.toList.getLast? != some 'p') = true →
      l.contains (extensionOf (s ++ ".map")) = false := by
    intro l all
    rw [List.contains_eq_mem, decide_eq_false_iff_not]
    intro mem
    have := List.all_eq_true.mp all _ mem
    rw [← ends] at this
    simp at this
  have extended : p.extension = extensionOf (s ++ ".map") := by
    simp [extension, named]
  simp only [Kind.ofPath, extended]
  rw [last [".js", ".mjs", ".cjs", ".jsx"] (by decide), last [".d.ts", ".d.mts", ".d.cts"] (by decide)]
  exact if_pos (List.isSuffixOf_iff_suffix.mpr ⟨more, ends⟩)

/-- The name of a code file ends in an extension of code. -/
theorem exists_suffix_of_code {p : Path} {s : String} (named : p.fileName = some s)
    (code : Kind.ofPath p = .code) :
    ∃ x ∈ [".js", ".mjs", ".cjs", ".jsx"], x.toList <:+ s.toList := by
  have own : p.extension = extensionOf s := by simp [extension, named]
  refine ⟨extensionOf s, ?_, extensionOf_isSuffix s⟩
  unfold Kind.ofPath at code
  simp only [own] at code
  split at code
  · rename_i listed
    exact List.contains_iff_mem.mp listed
  · split at code
    · cases code
    · split at code <;> cases code

/-- Of the extensions that the files of a code file have, only its own can make a code file, whatever
the stem. -/
theorem eq_extension_of_code {file path : Path} {t x : String} (hx : x ∈ file.siblingExtensions)
    (named : path.fileName = some (t ++ x)) (code : Kind.ofPath path = .code) : x = file.extension := by
  obtain ⟨e, he, ends⟩ := exists_suffix_of_code named code
  have never {front y : String} (hy : y ∈ [".map", ".d.ts", ".d.ts.map"])
      (whole : t ++ x = front ++ y) : False := by
    have apart : ∀ e ∈ [".js", ".mjs", ".cjs", ".jsx"], ∀ y ∈ [".map", ".d.ts", ".d.ts.map"],
        e.toList.length ≤ y.toList.length ∧ ¬ e.toList <:+ y.toList := by decide
    obtain ⟨short, no⟩ := apart e he y hy
    rw [whole, String.toList_append] at ends
    exact no (List.suffix_of_suffix_length_le ends (List.suffix_append _ _) short)
  simp only [siblingExtensions, List.mem_cons, List.not_mem_nil, or_false] at hx
  rcases hx with rfl | rfl | rfl | rfl
  · rfl
  · exact (never (by decide) String.append_assoc.symm).elim
  · exact (never (by decide) rfl).elim
  · exact (never (by decide) rfl).elim

theorem kind_mapPath {p : Path} (h : p.Tidy) {s : String} (ps : p.fileName = some s) :
    Kind.ofPath p.mapPath = .positionMap := by
  obtain ⟨name, front, e⟩ := of_fileName ps
  refine kind_of_map_name name.1 (s := s) ?_
  simp [fileName, components_mapPath h e]

end Path

/-- The map of an artifact lies beside it, and the artifact has a name. -/
theorem Artifact.of_map? {a : Artifact} {path : Path}
    (h : a.map? = some path) : path = a.path.mapPath ∧ ∃ s, a.path.fileName = some s := by
  unfold map? at h
  split at h
  · rename_i owns
    have kind : Kind.ofPath a.path ≠ .other := by
      intro other
      rw [show a.kind = .other from other] at owns
      simp [Kind.ownsMap] at owns
    exact ⟨(Option.some.inj h).symm, Path.exists_fileName_of_kind kind⟩
  · cases h

end Apportion
