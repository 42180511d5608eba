import Apportion.PositionMap.Compose
import Apportion.Proofs.PathMap
import Apportion.Proofs.PositionMap.Mappings
import Mathlib.Data.List.Perm.Subperm

/-!
Where maps lead. `lookup` answers for a place by the last segment at or before it, and tracing finds
the same one (`trace_eq_segmentAt`). A composed map is assembled from joined segments, with tables of
the sources and names that they use (`compose_eq_ok`).
-/
namespace Apportion

namespace PositionMap

/-! ## Where a map leads -/

/-- A place in a source: the source's entry, line and column, and the name of what stands there. -/
structure Landing where
  source : Option (Option String)
  line : UInt32
  column : UInt32
  name : Option String
  deriving DecidableEq, Repr

def landing (m : PositionMap) (o : Origin) : Landing :=
  ⟨m.sources[o.source.toNat]?, o.line, o.column, o.name.bind fun n => m.names[n.toNat]?⟩

/-- Where the last segment at or before a column leads. -/
def lookup (m : PositionMap) (line column : Nat) : Option Landing := do
  let lines ← m.lines.toOption
  let segments ← lines[line]?
  let s ← (segments.filter fun s => s.column.toNat ≤ column).getLast?
  return m.landing (← s.origin)

theorem notAfter_trans (a b c : Segment) (h : a.notAfter b = true) (h' : b.notAfter c = true) :
    a.notAfter c = true := by
  simp only [Segment.notAfter, decide_eq_true_eq] at *
  exact UInt32.le_trans h h'

theorem notAfter_total (a b : Segment) : (a.notAfter b || b.notAfter a) = true := by
  simp only [Segment.notAfter, Bool.or_eq_true, decide_eq_true_eq]
  exact UInt32.le_total _ _

theorem ordered_of_readLines {index : Nat} {sums : Sums} {texts : List (List Char)} {lines : Lines}
    (h : readLines index sums texts = .ok lines) :
    ∀ line ∈ lines, line.Pairwise fun s t => s.column ≤ t.column := by
  induction texts generalizing index sums lines with
  | nil =>
    cases h
    simp
  | cons text texts ih =>
    simp only [readLines] at h
    split at h
    · cases h
    · obtain ⟨rest, later, rfl⟩ := Except.map_eq_ok.mp h
      intro line hl
      rcases List.mem_cons.mp hl with rfl | hl
      · refine (List.pairwise_mergeSort notAfter_trans notAfter_total _).imp fun {a b} h => ?_
        simpa [Segment.notAfter] using h
      · exact ih later line hl

theorem ordered_of_lines {m : PositionMap} {lines : Lines} (h : m.lines = .ok lines) :
    ∀ line ∈ lines, line.Pairwise fun s t => s.column ≤ t.column := by
  unfold PositionMap.lines at h
  split at h
  · rename_i read
    cases h
    exact ordered_of_readLines read
  · cases h

theorem lines_of_mappings {m : PositionMap} {lines : Lines} (h : m.mappings = encode lines)
    (ne : lines ≠ []) : m.lines = .ok (lines.map fun line => line.mergeSort Segment.notAfter) := by
  rw [PositionMap.lines, h, decode_encode ne]

theorem lines_of_encode {m : PositionMap} {lines : Lines} (h : m.mappings = encode lines)
    (ne : lines ≠ []) (ordered : ∀ line ∈ lines, line.Pairwise fun s t => s.column ≤ t.column) :
    m.lines = .ok lines := by
  have same : lines.map (fun line => line.mergeSort Segment.notAfter) = lines := by
    refine (List.map_congr_left fun line hl => ?_).trans (List.map_id _)
    refine List.mergeSort_of_pairwise ((ordered line hl).imp fun {s t} le => ?_)
    simpa [Segment.notAfter] using le
  rw [lines_of_mappings h ne, same]

theorem traceLine_eq {segments : List Segment} (ordered : segments.Pairwise fun s t => s.column ≤ t.column)
    (column : UInt32) :
    traceLine segments column = (segments.filter fun s => s.column ≤ column).getLast? := by
  unfold traceLine
  congr 1
  induction segments with
  | nil => rfl
  | cons s rest ih =>
    obtain ⟨first, ordered⟩ := List.pairwise_cons.mp ordered
    by_cases h : s.column ≤ column
    · simp [h, ih ordered]
    · have none : rest.filter (fun s => decide (s.column ≤ column)) = [] := by
        rw [List.filter_eq_nil_iff]
        intro t ht
        simpa using fun le => h (UInt32.le_trans (first t ht) le)
      simp [h, none]

def segmentAt (lines : Lines) (line column : Nat) : Option Segment :=
  lines[line]?.bind fun segments => (segments.filter fun s => s.column.toNat ≤ column).getLast?

theorem mem_of_getLast?_filter {segments : List Segment} {keep : Segment → Bool} {s : Segment}
    (h : (segments.filter keep).getLast? = some s) : s ∈ segments ∧ keep s = true :=
  List.mem_filter.mp (List.mem_of_getLast? h)

theorem exists_mem_of_segmentAt {lines : Lines} {line column : Nat} {s : Segment}
    (h : segmentAt lines line column = some s) : ∃ segments ∈ lines, s ∈ segments := by
  obtain ⟨segments, found, last⟩ := Option.bind_eq_some_iff.mp h
  exact ⟨segments, List.mem_of_getElem? found, (mem_of_getLast?_filter last).1⟩

theorem lookup_eq {m : PositionMap} {lines : Lines} (h : m.lines = .ok lines) (line column : Nat) :
    m.lookup line column = ((segmentAt lines line column).bind (·.origin)).map m.landing := by
  unfold lookup segmentAt
  rw [h]
  cases found : lines[line]? with
  | none => simp [Except.toOption, found]
  | some segments =>
    simp only [Except.toOption, Option.bind_eq_bind, Option.bind_some, found]
    generalize (segments.filter fun s => decide (s.column.toNat ≤ column)).getLast? = last
    rcases last with _ | ⟨_, _ | o⟩ <;> rfl

/-- On lines that have been read, tracing finds the last segment at or before a column. -/
theorem trace_eq_segmentAt {m : PositionMap} {lines : Lines} (h : m.lines = .ok lines)
    (line column : UInt32) : trace lines line column = segmentAt lines line.toNat column.toNat := by
  unfold trace segmentAt
  cases found : lines[line.toNat]? with
  | none => rfl
  | some segments =>
    rw [Option.bind_some, Option.bind_some,
      traceLine_eq (ordered_of_lines h segments (List.mem_of_getElem? found))]
    simp only [UInt32.le_iff_toNat_le]

theorem lookup_eq_trace {m : PositionMap} {lines : Lines} (h : m.lines = .ok lines)
    {line column : Nat} (short : line < 2 ^ 32) (narrow : column < 2 ^ 32) :
    m.lookup line column =
      ((trace lines (.ofNat line) (.ofNat column)).bind (·.origin)).map m.landing := by
  rw [trace_eq_segmentAt h, UInt32.toNat_ofNat_of_lt' short, UInt32.toNat_ofNat_of_lt' narrow,
    lookup_eq h]

/-- On a line of different columns every segment answers for its own column. -/
theorem traceLine_of_mem {segments : List Segment}
    (ordered : segments.Pairwise fun s t => s.column < t.column)
    {s : Segment} (h : s ∈ segments) : traceLine segments s.column = some s := by
  rw [traceLine_eq (ordered.imp UInt32.le_of_lt)]
  obtain ⟨front, back, rfl⟩ := List.append_of_mem h
  have after := (List.pairwise_cons.mp (List.pairwise_append.mp ordered).2.1).1
  have none : back.filter (fun t => decide (t.column ≤ s.column)) = [] := by
    rw [List.filter_eq_nil_iff]
    intro t ht
    simpa [UInt32.not_le] using after t ht
  simp [List.filter_append, none]

/-! ## Indexes -/

theorem getElem?_indexIn {α : Type} [BEq α] [LawfulBEq α] {a : α} {l : List α} (h : a ∈ l)
    (short : l.length ≤ 2 ^ 32) : l[(indexIn a l).toNat]? = some a := by
  have lt := List.idxOf_lt_length_iff.mpr h
  rw [indexIn, UInt32.toNat_ofNat_of_lt' (Nat.lt_of_lt_of_le lt short)]
  exact List.getElem?_idxOf h

/-- There are only so many words. -/
theorem length_le_of_nodup {l : List UInt32} (h : l.Nodup) : l.length ≤ 2 ^ 32 := by
  have nodup : (l.map UInt32.toNat).Nodup :=
    List.Pairwise.map _ (fun a b ne e => ne (UInt32.toNat_inj.mp e)) h
  have sub : l.map UInt32.toNat ⊆ List.range (2 ^ 32) := by
    intro n hn
    obtain ⟨w, -, rfl⟩ := List.mem_map.mp hn
    exact List.mem_range.mpr w.toNat_lt
  have := (List.subperm_of_subset nodup sub).length_le
  rwa [List.length_map, List.length_range] at this

/-- What is found under words has no more than so many values. -/
theorem length_le_of_words {α : Type} {l table : List α} (h : l.Nodup)
    (found : ∀ a ∈ l, ∃ w : UInt32, table[w.toNat]? = some a) : l.length ≤ 2 ^ 32 := by
  have sub : l ⊆ table.take (2 ^ 32) := by
    intro a ha
    obtain ⟨w, e⟩ := found a ha
    refine List.mem_of_getElem? (i := w.toNat) ?_
    rw [List.getElem?_take_of_lt w.toNat_lt, e]
  have := (List.subperm_of_subset h sub).length_le
  rw [List.length_take] at this
  omega

/-! ## Composed lines -/

def usedSources (joined : List (List Joined)) : List UInt32 :=
  ((joined.flatten.filterMap (·.origin)).map (·.1)).eraseDups

def usedNames (joined : List (List Joined)) : List String :=
  ((joined.flatten.filterMap (·.origin)).filterMap fun (_, _, _, name) => name).eraseDups

def joinedLines (joined : List (List Joined)) : Lines :=
  joined.map fun line => line.map (Joined.segment (usedSources joined) (usedNames joined))

def assembled (outer inner : PositionMap) (joined : List (List Joined)) : PositionMap where
  file := outer.file
  sourceRoot := inner.sourceRoot
  sources := (usedSources joined).map fun i => inner.sources[i.toNat]?.join
  sourcesContent :=
    if ((usedSources joined).map inner.contentAt).any Option.isSome then
      some ((usedSources joined).map inner.contentAt)
    else none
  names := usedNames joined
  mappings := encode (joinedLines joined)

theorem compose_eq_ok {outer inner composed : PositionMap} :
    compose outer inner = .ok composed ↔ ∃ outerLines innerLines joined,
      outer.lines = .ok outerLines ∧ inner.lines = .ok innerLines ∧
      outerLines.mapM (joinLine outer inner innerLines) = .ok joined ∧
      assembled outer inner joined = composed := by
  constructor
  · intro h
    obtain ⟨outerLines, ho, h⟩ := Except.bind_eq_ok.mp h
    obtain ⟨innerLines, hi, h⟩ := Except.bind_eq_ok.mp h
    obtain ⟨joined, hj, h⟩ := Except.bind_eq_ok.mp h
    cases h
    exact ⟨outerLines, innerLines, joined, ho, hi, hj, rfl⟩
  · rintro ⟨outerLines, innerLines, joined, ho, hi, hj, rfl⟩
    refine Except.bind_eq_ok.mpr ⟨outerLines, ho, ?_⟩
    refine Except.bind_eq_ok.mpr ⟨innerLines, hi, ?_⟩
    exact Except.bind_eq_ok.mpr ⟨joined, hj, rfl⟩

theorem joinLine_eq_ok {outer inner : PositionMap} {innerLines : Lines} {segments : List Segment}
    {js : List Joined} : joinLine outer inner innerLines segments = .ok js ↔ ∃ all,
      segments.mapM (joinSegment outer inner innerLines) = .ok all ∧ js = all.filterMap id := by
  constructor
  · intro h
    obtain ⟨all, each, h⟩ := Except.bind_eq_ok.mp h
    cases h
    exact ⟨all, each, rfl⟩
  · rintro ⟨all, each, rfl⟩
    unfold joinLine
    rw [each]
    rfl

end PositionMap
end Apportion
