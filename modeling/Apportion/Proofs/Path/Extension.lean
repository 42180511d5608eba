import Apportion.Path
import Apportion.Proofs.Path.Components

/-!
File stems. An extension is a proper end of its file name, so that the stem of a file name is never
empty (`stem_ne_empty`); a stem that is no name is a dot or two (`stem_cases`).
-/
namespace Apportion.Path

/-- What comes after the last dot. -/
theorem exists_eq_append_dot {name : List Char} (dot : '.' ∈ name) :
    ∃ front, name = front ++ '.' :: (name.reverse.takeWhile (· ≠ '.')).reverse := by
  obtain ⟨after, before, e, none⟩ := List.eq_append_cons_of_mem (List.mem_reverse.mpr dot)
  have own : name.reverse.takeWhile (· ≠ '.') = after := by
    rw [e, List.takeWhile_append_of_pos fun c hc => ?_, List.takeWhile_cons_of_neg (by simp),
      List.append_nil]
    exact decide_eq_true fun is => none (is ▸ hc)
  refine ⟨before.reverse, ?_⟩
  rw [own, ← List.reverse_reverse name, e]
  simp

theorem simpleExtension_isSuffix_tail (name : List Char) : simpleExtension name <:+ name.tail := by
  cases name with
  | nil => exact List.suffix_refl _
  | cons c rest =>
    by_cases dot : '.' ∈ rest
    · obtain ⟨front, e⟩ := exists_eq_append_dot dot
      rw [simpleExtension, if_pos dot]
      exact ⟨front, e.symm⟩
    · rw [simpleExtension, if_neg dot]
      exact List.nil_suffix

theorem extensionOf_isSuffix (name : String) : (extensionOf name).toList <:+ name.toList := by
  unfold extensionOf
  split
  · rename_i e found
    have fits := List.find?_some found
    rw [Bool.and_eq_true, List.isSuffixOf_iff_suffix] at fits
    exact fits.2
  · rw [String.toList_ofList]
    exact (simpleExtension_isSuffix_tail _).trans (List.tail_suffix _)

theorem extensionOf_length {name : String} (h : name ≠ "") :
    (extensionOf name).toList.length < name.toList.length := by
  unfold extensionOf
  split
  · rename_i e found
    have fits := List.find?_some found
    simp only [Bool.and_eq_true, decide_eq_true_eq, List.isSuffixOf_iff_suffix] at fits
    refine Nat.lt_of_le_of_ne fits.2.length_le fun len => fits.1 ?_
    exact (String.toList_inj.mp (fits.2.eq_of_length len)).symm
  · have tail := (simpleExtension_isSuffix_tail name.toList).length_le
    have pos := List.length_pos_iff.mpr (mt String.toList_eq_nil_iff.mp h)
    rw [List.length_tail] at tail
    rw [String.toList_ofList]
    omega

theorem stem_isPrefix (p : Path) : p.stem.toList <+: (p.fileName.getD "").toList := by
  simp only [stem, String.toList_ofList]
  exact List.take_prefix _ _

theorem stem_append_extension {p : Path} {s : String} (h : p.fileName = some s) :
    p.stem ++ p.extension = s := by
  have own : p.extension = extensionOf s := by simp [extension, h]
  obtain ⟨front, e⟩ := extensionOf_isSuffix s
  refine String.toList_inj.mp ?_
  rw [String.toList_append, stem, h, own, Option.getD_some, String.toList_ofList, ← e]
  simp

theorem stem_ne_empty {p : Path} {s : String} (h : p.fileName = some s) : p.stem ≠ "" := by
  have name := (of_fileName h).1
  have lt := extensionOf_length name.1
  intro e
  have := congrArg String.toList e
  simp only [stem, extension, h, Option.map_some, Option.getD_some, String.toList_ofList,
    String.toList_empty, List.take_eq_nil_iff] at this
  rcases this with len | nil
  · omega
  · exact name.1 (by simpa using nil)

theorem slash_not_mem_fileName (p : Path) : '/' ∉ (p.fileName.getD "").toList := by
  cases h : p.fileName with
  | none => simp
  | some s => exact (of_fileName h).1.2.2.2

theorem slash_not_mem_stem (p : Path) : '/' ∉ p.stem.toList := fun mem =>
  p.slash_not_mem_fileName (p.stem_isPrefix.subset mem)

theorem stem_cases {p : Path} {s : String} (h : p.fileName = some s) :
    IsName p.stem ∨ p.stem = "." ∨ p.stem = ".." := by
  by_cases dot : p.stem = "."
  · exact .inr (.inl dot)
  · by_cases dots : p.stem = ".."
    · exact .inr (.inr dots)
    · exact .inl ⟨stem_ne_empty h, dot, dots, p.slash_not_mem_stem⟩

end Apportion.Path
