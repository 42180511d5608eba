import Apportion.Proofs.Edit.Trace
import Apportion.Proofs.PositionMap.Join

/-!
Maps that can be composed. A map is intact if its mappings can be read and its segments point into its
tables (`Intact`). The map of an edited text names nothing (`name_of_mem_tracedLines`), so that its
composition with an intact map never fails (`exists_compose`).
-/
namespace Apportion

namespace PositionMap

/-- A map with mappings that can be read and indexes within its tables. -/
def Intact (m : PositionMap) : Prop :=
  ∃ lines, m.lines = .ok lines ∧ ∀ line ∈ lines, ∀ s ∈ line, ∀ o, s.origin = some o →
    o.source.toNat < m.sources.length ∧ ∀ n, o.name = some n → n.toNat < m.names.length

instance (m : PositionMap) : Decidable m.Intact :=
  match read : m.lines with
  | .error _ => isFalse fun ⟨_, ok, _⟩ => by
    rw [read] at ok
    cases ok
  | .ok lines =>
    -- A bounded quantifier over the name would be decided by going through all words of 32 bits.
    decidable_of_iff (∀ line ∈ lines, ∀ s ∈ line, s.origin.all (fun o =>
        o.source.toNat < m.sources.length && o.name.all (·.toNat < m.names.length)) = true)
      ⟨fun within => ⟨lines, read, by simpa [Option.all_eq_true] using within⟩,
        fun ⟨_, ok, within⟩ => by
          cases read.symm.trans ok
          simpa [Option.all_eq_true] using within⟩

theorem Intact.withSources {m m' : PositionMap} {sources : List (Option String)} (h : m.Intact)
    (ok : m.withSources sources = .ok m') : m'.Intact := by
  unfold PositionMap.withSources at ok
  split at ok
  · rename_i count
    cases ok
    obtain ⟨lines, read, within⟩ := h
    exact ⟨lines, read, fun line hl s hs o ho => by
      rw [count]
      exact within line hl s hs o ho⟩
  · cases ok

end PositionMap

namespace EditBuffer
open PositionMap

/-! ## Segments without names -/

def Unnamed (s : Segment) : Prop := ∀ o, s.origin = some o → o.name = none

namespace Walk
variable {w : Walk}

def Nameless (w : Walk) : Prop := ∀ line ∈ w.current :: w.finished, ∀ s ∈ line, Unnamed s

theorem Nameless.mark (h : w.Nameless) : w.mark.Nameless := by
  unfold Walk.mark
  split
  · exact h
  · intro line hl s hs
    rcases List.mem_cons.mp hl with rfl | hl
    · rcases List.mem_cons.mp hs with rfl | hs
      · rintro o ⟨⟩
        rfl
      · exact h _ List.mem_cons_self s hs
    · exact h line (List.mem_cons_of_mem _ hl) s hs

theorem Nameless.advance (h : w.Nameless) (c : Char) : (w.advance c).Nameless := by
  unfold Walk.advance
  split
  · intro line hl s hs
    rcases List.mem_cons.mp hl with rfl | hl
    · cases hs
    · rcases List.mem_cons.mp hl with rfl | hl
      · exact h _ List.mem_cons_self s (List.mem_reverse.mp hs)
      · exact h line (List.mem_cons_of_mem _ hl) s hs
  · exact h

theorem Nameless.keep (h : w.Nameless) (c : Char) : (w.keep c).Nameless := by
  unfold Walk.keep
  dsimp only
  split
  · exact h.mark.advance c
  · exact h.advance c

theorem Nameless.pass (h : w.Nameless) (stretch : Stretch) : (w.pass stretch).Nameless := by
  cases stretch with
  | kept text =>
    exact List.foldlRecOn text Walk.keep h fun w hw c _ => hw.keep c
  | replaced old new =>
    exact List.foldlRecOn new Walk.advance h.mark fun w hw c _ => hw.advance c

theorem nameless_begin : begin.Nameless := by
  intro line hl s hs
  rw [List.mem_singleton.mp hl] at hs
  cases hs

end Walk

theorem name_of_mem_tracedLines (b : EditBuffer) :
    ∀ line ∈ b.tracedLines, ∀ s ∈ line, Unnamed s := by
  have all : (b.stretches.foldl Walk.pass Walk.begin).Nameless :=
    List.foldlRecOn b.stretches Walk.pass Walk.nameless_begin fun w hw stretch _ => hw.pass stretch
  intro line hl s hs
  rcases List.mem_cons.mp (List.mem_reverse.mp hl) with rfl | hl
  · exact all _ List.mem_cons_self s (List.mem_reverse.mp hs)
  · exact all line (List.mem_cons_of_mem _ hl) s hs

/-! ## Composition -/

theorem lines_positionMap (b : EditBuffer) (file source : String) :
    (b.positionMap file source).lines =
      .ok (b.tracedLines.map fun segments => segments.mergeSort Segment.notAfter) :=
  lines_of_mappings rfl b.tracedLines_ne_nil

/-- The map of an edited text can be composed with any map that is intact. -/
theorem exists_compose (b : EditBuffer) {inner : PositionMap} (h : inner.Intact)
    (file source : String) : ∃ composed, compose (b.positionMap file source) inner = .ok composed := by
  obtain ⟨innerLines, read, within⟩ := h
  refine ⟨_, (compose_eq_ok_iff (b.lines_positionMap file source) read).mpr
    ⟨fun segments hl s hs place o origin leads => ?_, rfl⟩⟩
  obtain ⟨line, hline, rfl⟩ := List.mem_map.mp hl
  have unnamed := b.name_of_mem_tracedLines line hline s (List.mem_mergeSort.mp hs) place origin
  rw [onward_of_origin origin] at leads
  obtain ⟨t, found, there⟩ := Option.bind_eq_some_iff.mp leads
  obtain ⟨segments, hsegments, ht⟩ := exists_mem_of_segmentAt found
  obtain ⟨inside, names⟩ := within segments hsegments t ht o there
  refine ⟨inside, names, fun _ n named => ?_⟩
  rw [unnamed] at named
  cases named

end EditBuffer
end Apportion
