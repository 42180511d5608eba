import Apportion.Proofs.Edit.Buffer
import Mathlib.Data.List.Pairwise

/-!
Sequences of calls. A buffer takes an edit or refuses it, and a refused one changes nothing. After any
calls, the edits accepted so far alone decide what is taken next and what is rendered, which is the
text with their ranges replaced from the last to the first (`registered_afterCalls`).
-/
namespace Apportion
open Text

/-! ## Replacing one range after another -/

/-- A text with what stands in the range of an edit replaced. -/
def TextEdit.replaceIn (e : TextEdit) (text : List Char) : List Char :=
  match splitAtByte e.range.start text, splitAtByte e.range.stop text with
  | some (front, _), some (_, back) => front ++ e.replacement.toList ++ back
  | _, _ => text

/-- A text with several ranges replaced, from the last one to the first, so that no replacement moves
a range that is still to come. -/
def replaceBackwards (text : String) (edits : List TextEdit) : String :=
  String.ofList <|
    (edits.mergeSort fun e f => e.range.notAfter f.range).foldr TextEdit.replaceIn text.toList

theorem TextEdit.replaceIn_append {e : TextEdit} {front old back : List Char}
    (starts : byteLength front = e.range.start) (stops : byteLength (front ++ old) = e.range.stop) :
    e.replaceIn (front ++ old ++ back) = front ++ e.replacement.toList ++ back := by
  have after : splitAtByte e.range.stop (front ++ old ++ back) = some (front ++ old, back) := by
    rw [← stops]
    exact splitAtByte_append _ _
  have before : splitAtByte e.range.start (front ++ old ++ back) = some (front, old ++ back) := by
    rw [← starts, List.append_assoc]
    exact splitAtByte_append _ _
  rw [replaceIn, before, after]

/-- Stretches are rendered as the text that is left when their edits are made from the last one. -/
theorem CutAt.foldr_replaceIn {offset : Nat} {text : List Char} {edits : List TextEdit}
    {stretches : List Stretch} (h : CutAt offset text edits stretches) {front : List Char}
    (length : byteLength front = offset) :
    edits.foldr TextEdit.replaceIn (front ++ text) = front ++ stretches.flatMap Stretch.rendered := by
  induction h generalizing front with
  | rest => simp [Stretch.rendered]
  | @edit offset before old rest e edits stretches starts stops later ih =>
    have start : byteLength (front ++ before) = e.range.start := by
      rw [byteLength_append, length, starts]
    have stop : byteLength (front ++ before ++ old) = e.range.stop := by
      rw [byteLength_append, start, stops]
    have rest' := ih stop
    rw [List.foldr_cons, show front ++ (before ++ old ++ rest) = front ++ before ++ old ++ rest by simp,
      rest', TextEdit.replaceIn_append start stop]
    simp [Stretch.rendered]

/-! ## Calls -/

namespace EditBuffer

def call (b : EditBuffer) (e : TextEdit) : EditBuffer :=
  match b.overwrite e.range e.replacement with
  | .ok next => next
  | .error _ => b

def afterCalls (b : EditBuffer) (calls : List TextEdit) : EditBuffer := calls.foldl call b

/-- The edits among some calls that are accepted when they are made. -/
def accepted (b : EditBuffer) : List TextEdit → List TextEdit
  | [] => []
  | e :: calls =>
    match b.overwrite e.range e.replacement with
    | .ok next => e :: next.accepted calls
    | .error _ => b.accepted calls

variable {b b' : EditBuffer}

theorem Sound.afterCalls (h : b.Sound) (calls : List TextEdit) : (b.afterCalls calls).Sound ∧
    (b.afterCalls calls).text = b.text ∧
    (b.afterCalls calls).edits.Perm (b.accepted calls ++ b.edits) := by
  induction calls generalizing b with
  | nil => exact ⟨h, rfl, .refl _⟩
  | cons e calls ih =>
    cases outcome : b.overwrite e.range e.replacement with
    | error _ =>
      simpa [EditBuffer.afterCalls, call, accepted, outcome] using ih h
    | ok next =>
      obtain ⟨sound, text, perm⟩ := h.overwrite outcome
      obtain ⟨sound', text', perm'⟩ := ih sound
      have step : b.afterCalls (e :: calls) = next.afterCalls calls := by
        simp [EditBuffer.afterCalls, call, outcome]
      rw [step, accepted, outcome]
      exact ⟨sound', text'.trans text, perm'.trans
        ((perm.append_left _).trans List.perm_middle)⟩

/-- So after any calls for a text its buffer holds the edits accepted among them. -/
theorem afterCalls_ofText (text : String) (calls : List TextEdit) :
    ((ofText text).afterCalls calls).Sound ∧ ((ofText text).afterCalls calls).text = text ∧
    ((ofText text).afterCalls calls).edits.Perm ((ofText text).accepted calls) := by
  obtain ⟨sound, same, perm⟩ := (sound_ofText text).afterCalls calls
  exact ⟨sound, same, perm.trans (.of_eq (List.append_nil _))⟩

/-- The edits of a sound buffer stand in the one order that sorting gives them. -/
theorem Sound.mergeSort_eq (h : b.Sound) {edits : List TextEdit} (perm : edits.Perm b.edits) :
    edits.mergeSort (fun e f => e.range.notAfter f.range) = b.edits := by
  have order (e f : TextEdit) : e.range.notAfter f.range = true ↔ e.range.start < f.range.start ∨
      e.range.start = f.range.start ∧ e.range.stop ≤ f.range.stop := by
    simp [ByteRange.notAfter]
  have apart : b.edits.Pairwise fun e f => e.range.start ≠ f.range.start :=
    h.ordered.imp fun before => Nat.ne_of_lt before.1
  have symmetric : Std.Symm fun e f : TextEdit => e.range.start ≠ f.range.start :=
    ⟨fun _ _ => Ne.symm⟩
  have sorted : (edits.mergeSort fun e f => e.range.notAfter f.range).Pairwise
      fun e f => e.range.notAfter f.range = true := by
    refine List.pairwise_mergeSort (fun e f g => ?_) (fun e f => ?_) edits
    · simp only [order]
      omega
    · simp only [Bool.or_eq_true, order]
      omega
  have sorted' : b.edits.Pairwise fun e f => e.range.notAfter f.range = true :=
    h.ordered.imp fun {e f} before => (order e f).mpr (.inl before.1)
  refine List.Perm.eq_of_pairwise ?_ sorted sorted' ((List.mergeSort_perm edits _).trans perm)
  intro e f he hf before after
  have he : e ∈ b.edits := perm.mem_iff.mp (List.mem_mergeSort.mp he)
  by_contra different
  rw [order] at before after
  have starts := apart.forall he hf different
  omega

/-- In whatever order they are taken, no two of them overlap. -/
theorem Sound.apart (h : b.Sound) {edits : List TextEdit} (perm : edits.Perm b.edits) :
    edits.Pairwise fun e f => e.range.overlaps f.range = false := by
  have ordered : b.edits.Pairwise fun e f => e.range.overlaps f.range = false :=
    h.ordered.imp_of_mem fun he hf before =>
      (ByteRange.overlaps_eq_false_iff (h.fits _ he).forward (h.fits _ hf).forward).mpr (.inl before)
  refine (perm.pairwise_iff fun {e f} clear => ?_).mpr ordered
  rw [ByteRange.overlaps_comm, clear]

/-- So two sound buffers of one text with the same edits are equal. -/
theorem Sound.eq_of_perm (h : b.Sound) (h' : b'.Sound) (text : b.text = b'.text)
    (perm : b.edits.Perm b'.edits) : b = b' := by
  have edits : b.edits = b'.edits :=
    (h.mergeSort_eq (.refl _)).symm.trans (h'.mergeSort_eq perm)
  cases b
  cases b'
  cases text
  cases edits
  rfl

/-- A buffer for a text in which some edits are registered: a further call is accepted exactly if the
range fits the text and overlaps none of theirs, and else changes nothing; rendered, the edits are
made from the last to the first; and no order of calls tells in the end. -/
structure Registered (text : String) (edits : List TextEdit) (b : EditBuffer) : Prop where
  takes : ∀ range replacement, (∃ next, b.overwrite range replacement = .ok next) ↔
    range.Fits text.toList ∧ ∀ e ∈ edits, e.range.overlaps range = false
  refuses : ∀ e fault, b.overwrite e.range e.replacement = .error fault → b.call e = b
  rendered : b.render = replaceBackwards text edits
  same : ∀ calls, ((ofText text).accepted calls).Perm edits → (ofText text).afterCalls calls = b
  again : ∀ order, order.Perm edits → (ofText text).overwriteAll order = .ok b

/-- After any calls, the edits accepted among them are registered. -/
theorem registered_afterCalls (text : String) (calls : List TextEdit) :
    Registered text ((ofText text).accepted calls) ((ofText text).afterCalls calls) := by
  obtain ⟨sound, same, perm⟩ := afterCalls_ofText text calls
  refine ⟨fun range replacement => ?_, fun e fault refused => by simp [call, refused], ?_,
    fun calls' perm' => ?_, fun order perm' => ?_⟩
  · have taken (next : EditBuffer) : ((ofText text).afterCalls calls).overwrite range replacement =
        .ok next ↔ _ := sound.overwrite_eq_ok_iff
    rw [same] at taken
    constructor
    · rintro ⟨next, ok⟩
      obtain ⟨fits, free, -⟩ := (taken next).mp ok
      exact ⟨fits, fun e he => free e (perm.mem_iff.mpr he)⟩
    · rintro ⟨fits, free⟩
      exact ⟨_, (taken _).mpr ⟨fits, fun e he => free e (perm.mem_iff.mp he), rfl⟩⟩
  · have made := sound.cutAt.foldr_replaceIn (show byteLength [] = 0 from rfl)
    rw [List.nil_append, List.nil_append, same] at made
    rw [replaceBackwards, sound.mergeSort_eq perm.symm, made]
    rfl
  · obtain ⟨sound', same', perm''⟩ := afterCalls_ofText text calls'
    exact sound'.eq_of_perm sound (same'.trans same.symm) (perm''.trans (perm'.trans perm.symm))
  · have fits : ∀ e ∈ order, e.range.Fits text.toList := fun e he =>
      same ▸ sound.fits e (perm.mem_iff.mpr (perm'.mem_iff.mp he))
    obtain ⟨b', ok⟩ := (sound_ofText text).overwriteAll_isOk_iff.mpr
      ⟨fun e he => ⟨fits e he, nofun⟩, sound.apart (perm'.trans perm.symm)⟩
    obtain ⟨sound', same', perm''⟩ := (sound_ofText text).overwriteAll ok
    rw [ofText, List.append_nil] at perm''
    rw [ok, sound'.eq_of_perm sound (same'.trans same.symm) (perm''.trans (perm'.trans perm.symm))]

end EditBuffer
end Apportion
