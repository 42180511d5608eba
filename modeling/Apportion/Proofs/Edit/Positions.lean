import Apportion.Proofs.Edit.Trace
import Apportion.Proofs.PositionMap.Join

/-!
Positions through an edit. The position map of an edited text is read back as it was traced
(`Sound.lines_positionMap`), so composed with a map of the text before it leads every kept character
at a break to where that map led it (`lookup_of_kept`).
-/
namespace Apportion
open Text PositionMap

namespace EditBuffer
variable {b : EditBuffer}

theorem Sound.lines_positionMap (h : b.Sound) (short : units b.render.toList < 2 ^ 32)
    (file source : String) : (b.positionMap file source).lines = .ok b.tracedLines :=
  lines_of_encode rfl b.tracedLines_ne_nil fun line hl =>
    (h.tracedLines_ordered short line hl).imp UInt32.le_of_lt

/-- A kept character is at a break if it is the first one kept in a row, belongs to no word, or stands
behind a blank or a character that belongs to no word. -/
theorem isBreak_of_place {previous : Option Char} {c : Char} (h : previous = none ∨
    isWordChar c = false ∨ ∃ p, previous = some p ∧ (isBlank p = true ∨ isWordChar p = false)) :
    isBreak previous c = true := by
  unfold isBreak
  rcases h with rfl | alone | ⟨p, rfl, blank | alone⟩
  · rfl
  · cases previous <;> simp [alone]
  · simp [blank]
  · cases e : isWordChar c <;> simp [alone]

/-- Where a map of a text leads a kept character, its composition with the map of the edits leads the
same character of the edited text. The character is the first of its line, the first one kept in a
row, in no word, or behind a blank or a character in no word. -/
theorem lookup_of_kept {text file source : String} {edits : List TextEdit}
    {inner composed : PositionMap} (accepted : (ofText text).overwriteAll edits = .ok b)
    (nonempty : ∀ e ∈ edits, e.replacement ≠ "") (short : units text.toList < 2 ^ 32)
    (short' : units b.render.toList < 2 ^ 32)
    (composes : compose (b.positionMap file source) inner = .ok composed)
    {c : Char} {old new : List Char} {previous : Option Char}
    (kept : b.KeptAt c old new previous) (visible : isBlank c = false)
    (place : columnOf new = 0 ∨ previous = none ∨ isWordChar c = false ∨
      ∃ p, previous = some p ∧ (isBlank p = true ∨ isWordChar p = false))
    {there : Landing} (leads : inner.lookup (lineOf old) (columnOf old) = some there) :
    composed.lookup (lineOf new) (columnOf new) = some there := by
  obtain ⟨sound, same, perm⟩ := (sound_ofText text).overwriteAll accepted
  have nonempty' : ∀ e ∈ b.edits, e.replacement ≠ "" := fun e he =>
    nonempty e (by simpa [ofText] using perm.mem_iff.mp he)
  obtain ⟨oldUnits, newUnits⟩ := sound.units_le_of_place (.kept kept)
  rw [show b.text = text from same] at oldUnits
  have word {n : Nat} (h : n < 2 ^ 32) : (UInt32.ofNat n).toNat = n := UInt32.toNat_ofNat_of_lt' h
  have oldLine := lineOf_le_units old
  have oldColumn := columnOf_le_units old
  have newLine := lineOf_le_units new
  have newColumn := columnOf_le_units new
  obtain ⟨segments, found, mem⟩ := (sound.linked_of_kept short' kept visible
    (place.imp_right isBreak_of_place)).holds nonempty'
  have leads' : inner.lookup (positionOf old).line.toNat (positionOf old).column.toNat =
      some there := by rwa [positionOf, word (by omega), word (by omega)]
  have answer := lookup_compose composes rfl (sound.lines_positionMap short' file source)
    (sound.tracedLines_ordered short') (by omega) found mem rfl leads'
  rwa [toNat_column_link (by omega)] at answer

/-- Behind a replacement that ends a line, a semicolon stands in another line and column than before
and is led to the place and name it was led to. -/
theorem lookup_of_semicolon :
    let text := "𝒳+f;"
    let inner : PositionMap :=
      ⟨none, none, [some "a.ts"], none, ["end"], encode [[⟨4, some ⟨0, 7, 2, some 0⟩⟩]]⟩
    ∃ b composed, (ofText text).overwriteAll [⟨⟨5, 6⟩, "g\n"⟩] = .ok b ∧
      compose (b.positionMap "a.js" "a.js") inner = .ok composed ∧
      inner.lookup 0 4 = some ⟨some (some "a.ts"), 7, 2, some "end"⟩ ∧
      composed.lookup 1 0 = some ⟨some (some "a.ts"), 7, 2, some "end"⟩ := by
  intro text inner
  let b : EditBuffer := ⟨text, [⟨⟨5, 6⟩, "g\n"⟩]⟩
  have accepted : (ofText text).overwriteAll [⟨⟨5, 6⟩, "g\n"⟩] = .ok b := by decide +kernel
  obtain ⟨sound, -, -⟩ := (sound_ofText text).overwriteAll accepted
  have joins : (inner.lines >>= fun innerLines => b.tracedLines.mapM
      (joinLine (b.positionMap "a.js" "a.js") inner innerLines)).toOption.isSome = true := by
    decide +kernel
  obtain ⟨innerLines, read, joined⟩ := Except.bind_eq_ok.mp (Except.eq_ok_of_isSome joins [])
  have composes := compose_eq_ok.mpr ⟨_, innerLines, _, sound.lines_positionMap (by decide +kernel)
    "a.js" "a.js", read, joined, rfl⟩
  have leads : inner.lookup 0 4 = some ⟨some (some "a.ts"), 7, 2, some "end"⟩ := by
    decide +kernel
  have kept : b.KeptAt ';' "𝒳+f".toList "𝒳+g\n".toList none :=
    ⟨[.kept "𝒳+".toList, .replaced ['f'] ['g', '\n']], [], [], [], by decide +kernel,
      by decide +kernel, by decide +kernel, rfl⟩
  refine ⟨b, _, accepted, composes, leads, ?_⟩
  exact lookup_of_kept accepted (by simp) (by decide +kernel) (by decide +kernel) composes kept
    (by decide +kernel) (.inl (by decide +kernel)) leads

end EditBuffer
end Apportion
