import Apportion.Edit
import Apportion.Proofs.PathMap

/-!
Edits that a buffer accepts. A buffer keeps its edits apart and in order (`Sound`), so that looking at
two neighbours is enough (`overwrite_eq_ok_iff`): a list of edits is accepted exactly if each fits the
text and no two overlap (`overwriteAll_isOk_iff`). What is rendered is the text with each range
replaced where it stands (`spliced_render`).
-/
namespace Apportion
open Text

/-! ## Ranges -/

namespace ByteRange

/-- A range between two characters of a text, or an end of it. -/
structure Fits (r : ByteRange) (text : List Char) : Prop where
  forward : r.start ≤ r.stop
  inside : r.stop ≤ byteLength text
  starts : isBoundary text r.start = true
  stops : isBoundary text r.stop = true

instance (r : ByteRange) (text : List Char) : Decidable (r.Fits text) :=
  decidable_of_iff (r.start ≤ r.stop ∧ r.stop ≤ byteLength text ∧ isBoundary text r.start = true ∧
    isBoundary text r.stop = true) ⟨fun h => ⟨h.1, h.2.1, h.2.2.1, h.2.2.2⟩, fun h => ⟨h.1, h.2, h.3, h.4⟩⟩

def Before (r s : ByteRange) : Prop := r.start < s.start ∧ r.stop ≤ s.start

theorem overlaps_comm (r s : ByteRange) : r.overlaps s = s.overlaps r := by
  rw [Bool.eq_iff_iff]
  simp only [overlaps, Bool.or_eq_true, Bool.and_eq_true, beq_iff_eq, decide_eq_true_eq]
  omega

theorem overlaps_self (r : ByteRange) : r.overlaps r = true := by simp [overlaps]

theorem overlaps_eq_false_iff {r s : ByteRange} (hr : r.start ≤ r.stop) (hs : s.start ≤ s.stop) :
    r.overlaps s = false ↔ r.Before s ∨ s.Before r := by
  rw [← Bool.not_eq_true]
  simp only [overlaps, Bool.or_eq_true, Bool.and_eq_true, beq_iff_eq, decide_eq_true_eq, Before]
  omega

end ByteRange

namespace EditBuffer

/-! ## Accepting one edit -/

/-- The edits of a buffer fit its text, each before the next. -/
structure Sound (b : EditBuffer) : Prop where
  fits : ∀ e ∈ b.edits, e.range.Fits b.text.toList
  ordered : b.edits.Pairwise fun e f => e.range.Before f.range

theorem sound_ofText (text : String) : (ofText text).Sound :=
  ⟨fun _ he => absurd he List.not_mem_nil, .nil⟩

section
variable {b : EditBuffer} {range : ByteRange}

def front (b : EditBuffer) (place : Nat) : List TextEdit :=
  b.edits.takeWhile fun e => e.range.start < place

def back (b : EditBuffer) (place : Nat) : List TextEdit :=
  b.edits.dropWhile fun e => e.range.start < place

theorem front_append_back (b : EditBuffer) (place : Nat) : b.front place ++ b.back place = b.edits :=
  List.takeWhile_append_dropWhile

theorem start_of_mem_front {place : Nat} {e : TextEdit} (h : e ∈ b.front place) :
    e.range.start < place := by
  have := List.all_eq_true.mp List.all_takeWhile e h
  simpa using this

theorem Sound.start_of_mem_back (h : b.Sound) {place : Nat} {e : TextEdit} (he : e ∈ b.back place) :
    place ≤ e.range.start := by
  have ordered := h.ordered
  rw [← front_append_back b place] at ordered
  have ordered := (List.pairwise_append.mp ordered).2.1
  have first := List.head?_dropWhile_not (fun e : TextEdit => decide (e.range.start < place)) b.edits
  rw [show b.edits.dropWhile (fun e => decide (e.range.start < place)) = b.back place from rfl] at first
  cases hb : b.back place with
  | nil =>
    rw [hb] at he
    cases he
  | cons f rest =>
    rw [hb] at he first ordered
    have low : place ≤ f.range.start := by simpa using first
    rcases List.mem_cons.mp he with rfl | he
    · exact low
    · exact Nat.le_trans low (Nat.le_of_lt ((List.pairwise_cons.mp ordered).1 e he).1)

/-- If the neighbours of a place leave a range free, all edits do. -/
theorem Sound.free_of_neighbours (h : b.Sound) (forward : range.start ≤ range.stop)
    (free : ∀ e ∈ neighbours (b.front range.start) (b.back range.start),
      e.range.overlaps range = false) :
    (∀ e ∈ b.front range.start, e.range.Before range) ∧
      ∀ e ∈ b.back range.start, range.Before e.range := by
  have ordered := h.ordered
  rw [← front_append_back b range.start] at ordered
  obtain ⟨ordered₁, ordered₂, -⟩ := List.pairwise_append.mp ordered
  have fits : ∀ e ∈ b.front range.start ++ b.back range.start, e.range.start ≤ e.range.stop := by
    intro e he
    rw [front_append_back] at he
    exact (h.fits e he).forward
  constructor
  · -- what ends before the last edit in front ends before the range
    intro e he
    obtain ⟨most, last, e₁⟩ : ∃ most last, b.front range.start = most ++ [last] :=
      ⟨_, _, (List.dropLast_concat_getLast (List.ne_nil_of_mem he)).symm⟩
    have mem : last ∈ b.front range.start := by simp [e₁]
    have start := start_of_mem_front mem
    have clear := free last (by simp [neighbours, e₁])
    have before : last.range.Before range := by
      rcases (ByteRange.overlaps_eq_false_iff (fits last (List.mem_append_left _ mem)) forward).mp clear
        with before | after
      · exact before
      · exact absurd after.1 (by omega)
    rw [e₁] at he ordered₁
    rcases List.mem_append.mp he with he | he
    · have := (List.pairwise_append.mp ordered₁).2.2 e he last (List.mem_singleton_self _)
      exact ⟨Nat.lt_trans this.1 before.1, Nat.le_of_lt (Nat.lt_of_le_of_lt this.2 before.1)⟩
    · rw [List.mem_singleton.mp he]
      exact before
  · intro e he
    cases hb : b.back range.start with
    | nil =>
      rw [hb] at he
      cases he
    | cons first rest =>
      have mem : first ∈ b.back range.start := by simp [hb]
      have start := h.start_of_mem_back mem
      have clear := free first (by simp [neighbours, hb])
      have after : range.Before first.range := by
        rcases (ByteRange.overlaps_eq_false_iff (fits first (List.mem_append_right _ mem)) forward).mp
          clear with before | after
        · exact absurd before.1 (by omega)
        · exact after
      rw [hb] at he ordered₂
      rcases List.mem_cons.mp he with rfl | he
      · exact after
      · have := (List.pairwise_cons.mp ordered₂).1 e he
        exact ⟨Nat.lt_trans after.1 this.1, Nat.le_of_lt (Nat.lt_of_le_of_lt after.2 this.1)⟩

/-- An edit is accepted if it fits the text and overlaps no edit accepted before, and takes its place
among them. -/
theorem Sound.overwrite_eq_ok_iff (h : b.Sound) {replacement : String} {b' : EditBuffer} :
    b.overwrite range replacement = .ok b' ↔
      range.Fits b.text.toList ∧ (∀ e ∈ b.edits, e.range.overlaps range = false) ∧
      b' = { b with edits := b.front range.start ++ ⟨range, replacement⟩ :: b.back range.start } := by
  have whole := front_append_back b range.start
  unfold overwrite
  simp only
  split
  · rename_i outside
    simp only [reduceCtorEq, false_iff, not_and]
    intro fits
    exact absurd outside (by have := fits.forward; have := fits.inside; omega)
  · rename_i inside
    split
    · rename_i splits
      simp only [reduceCtorEq, false_iff, not_and]
      intro fits
      simp [fits.starts, fits.stops] at splits
    · rename_i boundaries
      have fits : range.Fits b.text.toList := by
        simp only [Bool.not_eq_eq_eq_not, Bool.not_true, Bool.not_eq_false, Bool.and_eq_true]
          at boundaries
        exact ⟨by omega, by omega, boundaries.1, boundaries.2⟩
      split
      · rename_i other found
        simp only [reduceCtorEq, false_iff, not_and]
        intro _ free
        have mem : other ∈ b.edits := by
          rw [← whole]
          have near := List.mem_of_find?_eq_some found
          simp only [neighbours, List.mem_append, Option.mem_toList] at near ⊢
          exact near.imp List.mem_of_getLast? List.mem_of_mem_head?
        exact absurd (List.find?_some found) (by simp [free other mem])
      · rename_i missing
        have free := h.free_of_neighbours fits.forward fun e he => by
          simpa using List.find?_eq_none.mp missing e he
        have all : ∀ e ∈ b.edits, e.range.overlaps range = false := by
          intro e he
          rw [ByteRange.overlaps_eq_false_iff (h.fits e he).forward fits.forward]
          rw [← whole, List.mem_append] at he
          exact he.imp (free.1 e) (free.2 e)
        simp only [Except.ok.injEq]
        exact ⟨fun e => ⟨fits, all, e.symm⟩, fun e => e.2.2.symm⟩

theorem Sound.overwrite (h : b.Sound) {replacement : String} {b' : EditBuffer}
    (ok : b.overwrite range replacement = .ok b') :
    b'.Sound ∧ b'.text = b.text ∧ b'.edits.Perm (⟨range, replacement⟩ :: b.edits) := by
  obtain ⟨fits, free, rfl⟩ := h.overwrite_eq_ok_iff.mp ok
  have whole := front_append_back b range.start
  have clear := h.free_of_neighbours fits.forward fun e he => by
    simp only [neighbours, List.mem_append, Option.mem_toList] at he
    refine free e ?_
    rw [← whole, List.mem_append]
    exact he.imp List.mem_of_getLast? List.mem_of_mem_head?
  have perm : (b.front range.start ++ ⟨range, replacement⟩ :: b.back range.start).Perm
      (⟨range, replacement⟩ :: b.edits) := by
    refine List.perm_middle.trans ?_
    rw [whole]
  have ordered := h.ordered
  rw [← whole] at ordered
  obtain ⟨ordered₁, ordered₂, across⟩ := List.pairwise_append.mp ordered
  refine ⟨⟨fun e he => ?_, ?_⟩, rfl, perm⟩
  · rcases List.mem_cons.mp (perm.mem_iff.mp he) with rfl | he
    · exact fits
    · exact h.fits e he
  · refine List.pairwise_append.mpr ⟨ordered₁, List.pairwise_cons.mpr ⟨clear.2, ordered₂⟩, ?_⟩
    intro e he f hf
    rcases List.mem_cons.mp hf with rfl | hf
    · exact clear.1 e he
    · exact across e he f hf

end

/-! ## Accepting a list of edits -/

section
variable {b b' : EditBuffer} {edits : List TextEdit}

theorem overwriteAll_cons (b : EditBuffer) (e : TextEdit) (edits : List TextEdit) :
    b.overwriteAll (e :: edits) = b.overwrite e.range e.replacement >>= (·.overwriteAll edits) :=
  List.foldlM_cons

theorem Sound.overwriteAll (h : b.Sound) (ok : b.overwriteAll edits = .ok b') :
    b'.Sound ∧ b'.text = b.text ∧ b'.edits.Perm (edits ++ b.edits) := by
  induction edits generalizing b with
  | nil =>
    cases ok
    exact ⟨h, rfl, .refl _⟩
  | cons e edits ih =>
    rw [overwriteAll_cons] at ok
    obtain ⟨next, one, ok⟩ := Except.bind_eq_ok.mp ok
    obtain ⟨sound, text, perm⟩ := h.overwrite one
    obtain ⟨sound', text', perm'⟩ := ih sound ok
    refine ⟨sound', text'.trans text, perm'.trans ?_⟩
    exact (perm.append_left edits).trans List.perm_middle

/-- A list of edits is accepted exactly if each fits the text, and none overlaps another one or an
edit accepted before. -/
theorem Sound.overwriteAll_isOk_iff (h : b.Sound) : (∃ b', b.overwriteAll edits = .ok b') ↔
    (∀ e ∈ edits, e.range.Fits b.text.toList ∧ ∀ f ∈ b.edits, f.range.overlaps e.range = false) ∧
    edits.Pairwise fun e f => e.range.overlaps f.range = false := by
  induction edits generalizing b with
  | nil => exact ⟨fun _ => ⟨by simp, .nil⟩, fun _ => ⟨b, rfl⟩⟩
  | cons e edits ih =>
    simp only [overwriteAll_cons, Except.bind_eq_ok]
    constructor
    · rintro ⟨b', next, one, ok⟩
      obtain ⟨sound, text, perm⟩ := h.overwrite one
      obtain ⟨fits, free, -⟩ := h.overwrite_eq_ok_iff.mp one
      obtain ⟨all, apart⟩ := (ih sound).mp ⟨b', ok⟩
      rw [text] at all
      have later : ∀ f ∈ edits, e.range.overlaps f.range = false := fun f hf =>
        (all f hf).2 _ (perm.mem_iff.mpr List.mem_cons_self)
      refine ⟨fun f hf => ?_, List.pairwise_cons.mpr ⟨later, apart⟩⟩
      rcases List.mem_cons.mp hf with rfl | hf
      · exact ⟨fits, free⟩
      · exact ⟨(all f hf).1, fun g hg =>
          (all f hf).2 g (perm.mem_iff.mpr (List.mem_cons_of_mem _ hg))⟩
    · rintro ⟨all, apart⟩
      obtain ⟨later, apart⟩ := List.pairwise_cons.mp apart
      obtain ⟨fits, free⟩ := all e List.mem_cons_self
      obtain ⟨next, one⟩ : ∃ next, b.overwrite e.range e.replacement = .ok next :=
        ⟨_, h.overwrite_eq_ok_iff.mpr ⟨fits, free, rfl⟩⟩
      obtain ⟨sound, text, perm⟩ := h.overwrite one
      have free' : ∀ f ∈ edits, ∀ g ∈ next.edits, g.range.overlaps f.range = false := by
        intro f hf g hg
        rcases List.mem_cons.mp (perm.mem_iff.mp hg) with rfl | hg
        · exact later f hf
        · exact (all f (List.mem_cons_of_mem e hf)).2 g hg
      obtain ⟨b', ok⟩ := (ih sound).mpr ⟨fun f hf =>
        ⟨text ▸ (all f (List.mem_cons_of_mem e hf)).1, free' f hf⟩, apart⟩
      exact ⟨b', _, one, ok⟩

end

end EditBuffer

/-! ## Rendering -/

def Stretch.original : Stretch → List Char
  | kept text => text
  | replaced old _ => old

/-- Stretches of a text that starts at byte `offset` of the whole: between kept text each edit
replaces what stands in its range. -/
inductive CutAt : Nat → List Char → List TextEdit → List Stretch → Prop
  | rest (offset : Nat) (text : List Char) : CutAt offset text [] [.kept text]
  | edit {offset : Nat} {before old rest : List Char} {e : TextEdit} {edits : List TextEdit}
      {stretches : List Stretch} (starts : offset + byteLength before = e.range.start)
      (stops : e.range.start + byteLength old = e.range.stop)
      (later : CutAt e.range.stop rest edits stretches) :
      CutAt offset (before ++ old ++ rest) (e :: edits)
        (.kept before :: .replaced old e.replacement.toList :: stretches)

theorem CutAt.original {offset : Nat} {text : List Char} {edits : List TextEdit}
    {stretches : List Stretch} (h : CutAt offset text edits stretches) :
    stretches.flatMap Stretch.original = text := by
  induction h with
  | rest => simp [Stretch.original]
  | edit _ _ _ ih => simp [Stretch.original, ih]

theorem Text.eq_append_of_byteLength_le {s t u v : List Char} (h : s ++ t = u ++ v)
    (le : byteLength s ≤ byteLength u) : ∃ w, u = s ++ w ∧ t = w ++ v := by
  rcases List.append_eq_append_iff.mp h with ⟨w, e, e'⟩ | ⟨w, e, e'⟩
  · exact ⟨w, e, e'⟩
  · have none : w = [] := by
      rw [e, byteLength_append] at le
      cases w with
      | nil => rfl
      | cons c w =>
        have := c.utf8Size_pos
        simp only [byteLength] at le
        omega
    exact ⟨[], by simp [e, none], by simp [e', none]⟩

/-- A boundary of the whole text, behind some of it, is one of the rest. -/
theorem Text.splitAtByte_of_isBoundary {s t : List Char} {n : Nat}
    (h : isBoundary (s ++ t) n = true) (le : byteLength s ≤ n) :
    ∃ before rest, splitAtByte (n - byteLength s) t = some (before, rest) := by
  obtain ⟨⟨front, rest⟩, found⟩ := Option.isSome_iff_exists.mp h
  obtain ⟨whole, length⟩ := of_splitAtByte found
  obtain ⟨before, rfl, rfl⟩ := eq_append_of_byteLength_le whole (by omega)
  rw [byteLength_append] at length
  refine ⟨before, rest, ?_⟩
  rw [show n - byteLength s = byteLength before by omega]
  exact splitAtByte_append before rest

theorem EditBuffer.cutAt_stretchesFrom (front text : List Char) {edits : List TextEdit}
    (fits : ∀ e ∈ edits, e.range.Fits (front ++ text))
    (ordered : edits.Pairwise fun e f => e.range.Before f.range)
    (behind : ∀ e ∈ edits, byteLength front ≤ e.range.start) :
    CutAt (byteLength front) text edits (stretchesFrom (byteLength front) text edits) := by
  induction edits generalizing front text with
  | nil => exact .rest _ _
  | cons e edits ih =>
    obtain ⟨first, ordered⟩ := List.pairwise_cons.mp ordered
    have fit := fits e List.mem_cons_self
    have start := behind e List.mem_cons_self
    obtain ⟨before, more, cut⟩ := splitAtByte_of_isBoundary fit.starts start
    obtain ⟨rfl, length⟩ := of_splitAtByte cut
    have stop := fit.stops
    rw [← List.append_assoc] at stop
    have up : byteLength (front ++ before) = e.range.start := by
      rw [byteLength_append]
      omega
    obtain ⟨old, rest, cut'⟩ := splitAtByte_of_isBoundary stop (by have := fit.forward; omega)
    obtain ⟨rfl, length'⟩ := of_splitAtByte cut'
    rw [up] at cut' length'
    have stops : e.range.start + byteLength old = e.range.stop := by
      have := fit.forward
      omega
    have whole : byteLength (front ++ before ++ old) = e.range.stop := by
      rw [byteLength_append, up, stops]
    have later := ih (front ++ before ++ old) rest
      (fun f hf => by
        have := fits f (List.mem_cons_of_mem e hf)
        rwa [← List.append_assoc, ← List.append_assoc] at this) ordered
      (fun f hf => by
        rw [whole]
        exact (first f hf).2)
    rw [whole] at later
    simp only [stretchesFrom, cut, ByteRange.length, cut']
    rw [← List.append_assoc]
    exact .edit (by omega) stops later

/-- A text with each of some edits made where its range stands. -/
def Spliced (text : String) (edits : List TextEdit) (result : String) : Prop :=
  ∃ ordered stretches, ordered.Perm edits ∧ CutAt 0 text.toList ordered stretches ∧
    result = String.ofList (stretches.flatMap Stretch.rendered)

namespace EditBuffer
variable {b : EditBuffer}

theorem Sound.cutAt (h : b.Sound) : CutAt 0 b.text.toList b.edits b.stretches :=
  cutAt_stretchesFrom [] b.text.toList h.fits h.ordered fun _ _ => Nat.zero_le _

/-- Edits that are accepted for a text are all made in what is rendered. -/
theorem spliced_render {text : String} {edits : List TextEdit}
    (ok : (ofText text).overwriteAll edits = .ok b) : Spliced text edits b.render := by
  obtain ⟨sound, same, perm⟩ := (sound_ofText text).overwriteAll ok
  have cut := sound.cutAt
  rw [same] at cut
  exact ⟨b.edits, b.stretches, perm.trans (by simp [ofText]), cut, rfl⟩

end EditBuffer
end Apportion
