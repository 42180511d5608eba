import Apportion.Proofs.PositionMap.RoundTrip
import Apportion.Proofs.PositionMap.Tables

/-!
Composition segment by segment. It fails exactly if it meets an index outside of a table, and else it
carries over every outer segment that has no origin or one from where the inner map leads on
(`compose_eq_ok_iff`). What a segment becomes is told by the two maps and by the tables of what is
used (`joins_of_compose`), so that a segment that leads somewhere leads to the source, place and name
that the inner map tells (`lookup_compose`).
-/
namespace Apportion.PositionMap

/-! ## What a segment becomes -/

/-- Where lines lead on from the origin of a segment. -/
def onward (lines : Lines) (s : Segment) : Option Origin :=
  s.origin.bind fun place => (segmentAt lines place.line.toNat place.column.toNat).bind (·.origin)

/-- Whether a segment is carried over: it has no origin, or one from where the lines lead on. -/
def isCarried (lines : Lines) (s : Segment) : Bool := s.origin.isNone || (onward lines s).isSome

/-- The name that goes with two origins: the inner one's if it has one, else the outer one's. -/
def nameOf (outer inner : PositionMap) (place o : Origin) : Option String :=
  match o.name with
  | some n => inner.names[n.toNat]?
  | none => place.name.bind fun n => outer.names[n.toNat]?

/-- Two origins whose indexes, as far as they are looked up, are within the tables. -/
structure Within (outer inner : PositionMap) (place o : Origin) : Prop where
  source : o.source.toNat < inner.sources.length
  innerName : ∀ n, o.name = some n → n.toNat < inner.names.length
  outerName : o.name = none → ∀ n, place.name = some n → n.toNat < outer.names.length

/-- A segment that can be joined: if it leads on, it does so within the tables. -/
def Joinable (outer inner : PositionMap) (innerLines : Lines) (s : Segment) : Prop :=
  ∀ place o, s.origin = some place → onward innerLines s = some o → Within outer inner place o

/-- A segment as it is carried over, if it is. -/
def carry (outer inner : PositionMap) (innerLines : Lines) (s : Segment) : Option Joined :=
  match s.origin with
  | none => some ⟨s.column, none⟩
  | some place => (onward innerLines s).map fun o =>
      ⟨s.column, some (o.source, o.line, o.column, nameOf outer inner place o)⟩

def carriedLines (outer inner : PositionMap) (outerLines innerLines : Lines) : List (List Joined) :=
  outerLines.map fun line => line.filterMap (carry outer inner innerLines)

section
variable {outer inner composed : PositionMap} {outerLines innerLines : Lines} {s : Segment}
  {place o : Origin}

theorem onward_of_origin {lines : Lines} (h : s.origin = some place) : onward lines s =
    (segmentAt lines place.line.toNat place.column.toNat).bind (·.origin) := by
  rw [onward, h, Option.bind_some]

theorem carry_of_sourceless (h : s.origin = none) :
    carry outer inner innerLines s = some ⟨s.column, none⟩ := by
  simp [carry, h]

theorem carry_of_origin (h : s.origin = some place) : carry outer inner innerLines s =
    (onward innerLines s).map fun o =>
      ⟨s.column, some (o.source, o.line, o.column, nameOf outer inner place o)⟩ := by
  simp [carry, h]

theorem isSome_carry (outer inner : PositionMap) (innerLines : Lines) (s : Segment) :
    (carry outer inner innerLines s).isSome = isCarried innerLines s := by
  cases h : s.origin with
  | none => simp [carry_of_sourceless h, isCarried, h]
  | some place => simp [carry_of_origin h, isCarried, h]

theorem column_of_carry {j : Joined} (h : carry outer inner innerLines s = some j) :
    j.column = s.column := by
  cases hs : s.origin with
  | none =>
    rw [carry_of_sourceless hs] at h
    cases h
    rfl
  | some place =>
    rw [carry_of_origin hs] at h
    obtain ⟨o, -, rfl⟩ := Option.map_eq_some_iff.mp h
    rfl

theorem bind_origin_carry (outer inner : PositionMap) (innerLines : Lines) (s : Segment) :
    (carry outer inner innerLines s).bind (·.origin) =
      s.origin.bind fun place => (onward innerLines s).map fun o =>
        (o.source, o.line, o.column, nameOf outer inner place o) := by
  cases h : s.origin with
  | none => simp [carry_of_sourceless h]
  | some place =>
    rw [carry_of_origin h]
    cases onward innerLines s <;> rfl

theorem nameOf_of_named {n : UInt32} (h : o.name = some n) :
    nameOf outer inner place o = inner.names[n.toNat]? := by
  rw [nameOf, h]

theorem nameOf_of_nameless (h : o.name = none) :
    nameOf outer inner place o = place.name.bind fun n => outer.names[n.toNat]? := by
  rw [nameOf, h]

/-- Within the tables, there is a name if there is an index of one. -/
theorem isSome_nameOf (h : Within outer inner place o) :
    (nameOf outer inner place o).isSome = (o.name.isSome || place.name.isSome) := by
  cases inside : o.name with
  | some n => simp [nameOf_of_named inside, h.innerName n inside]
  | none =>
    rw [nameOf_of_nameless inside]
    cases outside : place.name with
    | some n => simp [h.outerName inside n outside]
    | none => rfl

/-! ## When composition succeeds -/

theorem nameAt_eq_ok_iff {names : List String} {n : UInt32} {name : String} :
    nameAt names n = .ok name ↔ names[n.toNat]? = some name := by
  unfold nameAt
  split <;> simp_all

theorem chosenName_eq_ok_iff {name : Option String} :
    chosenName outer inner place.name o.name = .ok name ↔
      ((∀ n, o.name = some n → n.toNat < inner.names.length) ∧
        (o.name = none → ∀ n, place.name = some n → n.toNat < outer.names.length)) ∧
      name = nameOf outer inner place o := by
  -- a looked-up name is there exactly if its index is within the table
  have one (names : List String) (n : UInt32) : (nameAt names n).map some = .ok name ↔
      n.toNat < names.length ∧ name = names[n.toNat]? := by
    rw [Except.map_eq_ok]
    simp only [nameAt_eq_ok_iff]
    constructor
    · rintro ⟨found, at', rfl⟩
      exact ⟨(List.getElem?_eq_some_iff.mp at').1, at'.symm⟩
    · rintro ⟨lt, rfl⟩
      exact ⟨names[n.toNat], List.getElem?_eq_getElem lt, (List.getElem?_eq_getElem lt).symm⟩
  unfold chosenName nameOf
  cases o.name with
  | some n => simp [one]
  | none =>
    cases place.name with
    | some n => simp [one]
    | none => simp [eq_comm]

/-- Joining a segment fails exactly if it meets an index outside of a table. -/
theorem joinSegment_eq_ok_iff (hi : inner.lines = .ok innerLines) {found : Option Joined} :
    joinSegment outer inner innerLines s = .ok found ↔
      Joinable outer inner innerLines s ∧ found = carry outer inner innerLines s := by
  unfold joinSegment Joinable
  cases hs : s.origin with
  | none => simp [carry_of_sourceless hs, eq_comm]
  | some place =>
    have traced : (trace innerLines place.line place.column).bind (·.origin) =
        onward innerLines s := by
      rw [trace_eq_segmentAt hi, onward, hs, Option.bind_some]
    rw [carry_of_origin hs]
    simp only [traced]
    cases onward innerLines s with
    | none => simp [eq_comm]
    | some o =>
      have one : (∀ place' o', some place = some place' → some o = some o' →
          Within outer inner place' o') ↔ Within outer inner place o :=
        ⟨fun all => all place o rfl rfl, by rintro within _ _ ⟨⟩ ⟨⟩; exact within⟩
      rw [one, Option.map_some]
      dsimp only
      split
      · rename_i outside
        simp only [reduceCtorEq, false_iff, not_and]
        exact fun within => absurd within.source (Nat.not_lt.mpr outside)
      · rename_i inside
        rw [Except.map_eq_ok]
        constructor
        · rintro ⟨name, chosen, rfl⟩
          obtain ⟨⟨first, second⟩, rfl⟩ := chosenName_eq_ok_iff.mp chosen
          exact ⟨⟨Nat.lt_of_not_le inside, first, second⟩, rfl⟩
        · rintro ⟨within, rfl⟩
          exact ⟨_, chosenName_eq_ok_iff.mpr ⟨⟨within.innerName, within.outerName⟩, rfl⟩, rfl⟩

theorem joinLine_eq_ok_iff (hi : inner.lines = .ok innerLines) {segments : List Segment}
    {js : List Joined} : joinLine outer inner innerLines segments = .ok js ↔
      (∀ s ∈ segments, Joinable outer inner innerLines s) ∧
      js = segments.filterMap (carry outer inner innerLines) := by
  rw [joinLine_eq_ok]
  simp only [Except.mapM_eq_ok_iff fun s _ found => joinSegment_eq_ok_iff (s := s) hi]
  constructor
  · rintro ⟨_, ⟨within, rfl⟩, rfl⟩
    exact ⟨within, by rw [List.filterMap_map]; rfl⟩
  · rintro ⟨within, rfl⟩
    exact ⟨_, ⟨within, rfl⟩, by rw [List.filterMap_map]; rfl⟩

theorem joinLines_eq_ok_iff (hi : inner.lines = .ok innerLines) {joined : List (List Joined)} :
    outerLines.mapM (joinLine outer inner innerLines) = .ok joined ↔
      (∀ line ∈ outerLines, ∀ s ∈ line, Joinable outer inner innerLines s) ∧
      joined = carriedLines outer inner outerLines innerLines :=
  Except.mapM_eq_ok_iff fun _ _ _ => joinLine_eq_ok_iff hi

/-- Composition fails exactly if it meets an index outside of a table, and else makes its map of the
segments that are carried over. -/
theorem compose_eq_ok_iff (ho : outer.lines = .ok outerLines) (hi : inner.lines = .ok innerLines) :
    compose outer inner = .ok composed ↔
      (∀ line ∈ outerLines, ∀ s ∈ line, Joinable outer inner innerLines s) ∧
      composed = assembled outer inner (carriedLines outer inner outerLines innerLines) := by
  rw [compose_eq_ok]
  simp only [ho, hi, Except.ok.injEq]
  constructor
  · rintro ⟨_, _, joined, rfl, rfl, each, rfl⟩
    obtain ⟨within, rfl⟩ := (joinLines_eq_ok_iff hi).mp each
    exact ⟨within, rfl⟩
  · rintro ⟨within, rfl⟩
    exact ⟨_, _, _, rfl, rfl, (joinLines_eq_ok_iff hi).mpr ⟨within, rfl⟩, rfl⟩

theorem ne_nil_of_lines {m : PositionMap} {lines : Lines} (h : m.lines = .ok lines) : lines ≠ [] := by
  unfold PositionMap.lines at h
  split at h
  · rename_i read
    cases h
    exact ne_nil_of_decode read
  · cases h

theorem columns_carriedLine (outer inner : PositionMap) (innerLines : Lines)
    (segments : List Segment) : (segments.filterMap (carry outer inner innerLines)).map (·.column) =
      (segments.filter (isCarried innerLines)).map (·.column) := by
  induction segments with
  | nil => rfl
  | cons s rest ih =>
    have here := isSome_carry outer inner innerLines s
    cases hs : carry outer inner innerLines s with
    | none =>
      rw [hs] at here
      simp [hs, ← here, ih]
    | some j =>
      rw [hs] at here
      simp [hs, ← here, ih, column_of_carry hs]

theorem getElem?_joinedLines (outer inner : PositionMap) (outerLines innerLines : Lines)
    (line : Nat) : (joinedLines (carriedLines outer inner outerLines innerLines))[line]? =
      outerLines[line]?.map fun segments => (segments.filterMap (carry outer inner innerLines)).map
        (Joined.segment (usedSources (carriedLines outer inner outerLines innerLines))
          (usedNames (carriedLines outer inner outerLines innerLines))) := by
  rw [joinedLines, carriedLines, List.map_map, List.getElem?_map]
  rfl

/-- An order of the columns of the outer lines holds on the composed lines. -/
theorem pairwise_carriedLines (outer inner : PositionMap) (innerLines : Lines)
    {R : UInt32 → UInt32 → Prop}
    (ordered : ∀ line ∈ outerLines, line.Pairwise fun s t => R s.column t.column) :
    ∀ line ∈ joinedLines (carriedLines outer inner outerLines innerLines),
      line.Pairwise fun s t => R s.column t.column := by
  intro line hl
  obtain ⟨js, hjs, rfl⟩ := List.mem_map.mp hl
  obtain ⟨segments, hs, rfl⟩ := List.mem_map.mp hjs
  have columns := List.pairwise_map.mpr ((ordered segments hs).filter (isCarried innerLines))
  rw [← columns_carriedLine outer inner innerLines segments] at columns
  exact List.pairwise_map.mpr (List.pairwise_map.mp columns)

/-- The lines of a composed map are the segments that are carried over, with their indexes. -/
theorem lines_assembled (inner : PositionMap) (innerLines : Lines) (ho : outer.lines = .ok outerLines) :
    (assembled outer inner (carriedLines outer inner outerLines innerLines)).lines =
      .ok (joinedLines (carriedLines outer inner outerLines innerLines)) := by
  refine lines_of_encode rfl ?_ (pairwise_carriedLines outer inner innerLines (ordered_of_lines ho))
  rw [joinedLines, carriedLines, List.map_map, Ne, List.map_eq_nil_iff]
  exact ne_nil_of_lines ho

/-! ## Tables of a composed map -/

/-- The inner sources that outer lines lead on to, in order. -/
def reachedSources (outerLines innerLines : Lines) : List UInt32 :=
  outerLines.flatten.filterMap fun s => (onward innerLines s).map (·.source)

/-- The names of the places that outer lines lead on to, in order. -/
def reachedNames (outer inner : PositionMap) (outerLines innerLines : Lines) : List String :=
  outerLines.flatten.filterMap fun s => s.origin.bind fun place =>
    (onward innerLines s).bind (nameOf outer inner place)

theorem origins_carriedLines (outer inner : PositionMap) (outerLines innerLines : Lines) :
    (carriedLines outer inner outerLines innerLines).flatten.filterMap (·.origin) =
      outerLines.flatten.filterMap fun s => s.origin.bind fun place =>
        (onward innerLines s).map fun o =>
          (o.source, o.line, o.column, nameOf outer inner place o) := by
  rw [carriedLines, ← List.filterMap_flatten, List.filterMap_filterMap]
  exact congrArg (List.filterMap · _) (funext fun s => bind_origin_carry outer inner innerLines s)

theorem usedSources_carriedLines (outer inner : PositionMap) (outerLines innerLines : Lines) :
    usedSources (carriedLines outer inner outerLines innerLines) =
      (reachedSources outerLines innerLines).eraseDups := by
  rw [usedSources, origins_carriedLines, List.map_filterMap, reachedSources]
  congr 2
  funext s
  cases h : s.origin with
  | none => simp [onward, h]
  | some place => cases onward innerLines s <;> rfl

theorem usedNames_carriedLines (outer inner : PositionMap) (outerLines innerLines : Lines) :
    usedNames (carriedLines outer inner outerLines innerLines) =
      (reachedNames outer inner outerLines innerLines).eraseDups := by
  rw [usedNames, origins_carriedLines, List.filterMap_filterMap, reachedNames]
  congr 2
  funext s
  cases h : s.origin with
  | none => rfl
  | some place => cases onward innerLines s <;> rfl

theorem mem_usedSources {line : List Segment} (hl : line ∈ outerLines) (hs : s ∈ line)
    (leads : onward innerLines s = some o) :
    o.source ∈ usedSources (carriedLines outer inner outerLines innerLines) := by
  rw [usedSources_carriedLines, List.mem_eraseDups]
  exact List.mem_filterMap.mpr ⟨s, List.mem_flatten.mpr ⟨line, hl, hs⟩, by rw [leads]; rfl⟩

theorem mem_usedNames {line : List Segment} {name : String} (hl : line ∈ outerLines) (hs : s ∈ line)
    (origin : s.origin = some place) (leads : onward innerLines s = some o)
    (named : nameOf outer inner place o = some name) :
    name ∈ usedNames (carriedLines outer inner outerLines innerLines) := by
  rw [usedNames_carriedLines, List.mem_eraseDups]
  refine List.mem_filterMap.mpr ⟨s, List.mem_flatten.mpr ⟨line, hl, hs⟩, ?_⟩
  rw [origin, leads]
  exact named

/-! ## What a composed map says -/

/-- The origin `o'` in a composed map stands for the inner origin `o`, to which the outer origin
`place` leads on. Indexes of names are words: they tell names apart as long as there are no more names
than words. -/
structure StandsFor (outer inner composed : PositionMap) (used : List UInt32)
    (place o o' : Origin) : Prop where
  line : o'.line = o.line
  column : o'.column = o.column
  index : used[o'.source.toNat]? = some o.source
  source : composed.sources[o'.source.toNat]? = inner.sources[o.source.toNat]?
  content : composed.contentAt o'.source = inner.contentAt o.source
  nameIndex : o'.name = (nameOf outer inner place o).map fun name =>
    UInt32.ofNat (composed.names.idxOf name)
  name : composed.names.length ≤ 2 ^ 32 →
    (o'.name.bind fun n => composed.names[n.toNat]?) = nameOf outer inner place o

/-- The segment `t` of a composed map is what the outer segment `s` becomes. -/
structure Becomes (outer inner composed : PositionMap) (innerLines : Lines) (used : List UInt32)
    (s t : Segment) : Prop where
  column : t.column = s.column
  sourceless : s.origin = none → t.origin = none
  sourced : ∀ place o, s.origin = some place → onward innerLines s = some o →
    ∃ o', t.origin = some o' ∧ StandsFor outer inner composed used place o o'

/-- A composed map is the join of the outer map with the inner one, segment by segment. Of the inner
sources it lists those that are `used`. -/
structure Joins (outer inner : PositionMap) (outerLines innerLines : Lines)
    (composed : PositionMap) (used : List UInt32) : Prop where
  lines : ∃ lines, composed.lines = .ok lines ∧
    List.Forall₂ (fun before after => List.Forall₂ (Becomes outer inner composed innerLines used)
      (before.filter (isCarried innerLines)) after) outerLines lines
  firstUses : FirstUses (reachedSources outerLines innerLines) used
  sources : composed.sources.map some = used.map fun i => inner.sources[i.toNat]?
  hasContents : composed.sourcesContent.isSome = true ↔
    ∃ i ∈ used, (inner.contentAt i).isSome = true
  contents : ∀ contents, composed.sourcesContent = some contents →
    contents = used.map inner.contentAt
  names : FirstUses (reachedNames outer inner outerLines innerLines) composed.names
  file : composed.file = outer.file
  sourceRoot : composed.sourceRoot = inner.sourceRoot

/-- The content of a source is that of the inner source which it was. -/
theorem contentAt_assembled (outer inner : PositionMap) (joined : List (List Joined)) {i : UInt32}
    (h : i ∈ usedSources joined) :
    (assembled outer inner joined).contentAt (indexIn i (usedSources joined)) =
      inner.contentAt i := by
  have found := getElem?_indexIn h (length_le_of_nodup (List.nodup_eraseDups _))
  unfold contentAt assembled
  dsimp only
  split
  · rw [Option.bind_some, List.getElem?_map, found]
    rfl
  · rename_i none
    rw [List.any_eq_true, not_exists] at none
    have absent := none (inner.contentAt i)
    simp only [List.mem_map, not_and, Bool.not_eq_true, Option.isSome_eq_false_iff] at absent
    exact (Option.isNone_iff_eq_none.mp (absent ⟨i, h, rfl⟩)).symm

/-- The origin that is written for an inner one, with its indexes in the tables of what is used. -/
def numbered (outer inner : PositionMap) (joined : List (List Joined)) (place o : Origin) : Origin :=
  ⟨indexIn o.source (usedSources joined), o.line, o.column,
    (nameOf outer inner place o).map fun name => indexIn name (usedNames joined)⟩

theorem standsFor_numbered
    (within : ∀ line ∈ outerLines, ∀ s ∈ line, Joinable outer inner innerLines s)
    {line : List Segment} (hl : line ∈ outerLines) (hs : s ∈ line) (origin : s.origin = some place)
    (leads : onward innerLines s = some o) :
    StandsFor outer inner (assembled outer inner (carriedLines outer inner outerLines innerLines))
      (usedSources (carriedLines outer inner outerLines innerLines)) place o
      (numbered outer inner (carriedLines outer inner outerLines innerLines) place o) := by
  have used : o.source ∈ usedSources (carriedLines outer inner outerLines innerLines) :=
    mem_usedSources hl hs leads
  have found := getElem?_indexIn used (length_le_of_nodup (List.nodup_eraseDups _))
  refine ⟨rfl, rfl, found, ?_, contentAt_assembled _ _ _ used, rfl, fun few => ?_⟩
  · have inside := (within line hl s hs place o origin leads).source
    rw [assembled, numbered, List.getElem?_map, found, Option.map_some,
      List.getElem?_eq_getElem inside]
    rfl
  · unfold numbered
    cases named : nameOf outer inner place o with
    | none => rfl
    | some name => exact getElem?_indexIn (mem_usedNames hl hs origin leads named) few

theorem isSome_name_of_standsFor {used : List UInt32} {o' : Origin}
    (h : StandsFor outer inner composed used place o o') :
    o'.name.isSome = (nameOf outer inner place o).isSome := by
  rw [h.nameIndex, Option.isSome_map]

theorem landing_of_standsFor {used : List UInt32} {o' : Origin}
    (h : StandsFor outer inner composed used place o o') (few : composed.names.length ≤ 2 ^ 32) :
    composed.landing o' =
      ⟨inner.sources[o.source.toNat]?, o.line, o.column, nameOf outer inner place o⟩ := by
  rw [landing, h.source, h.line, h.column, h.name few]

/-- A segment that is carried over is written as what it becomes. -/
theorem becomes_of_carry (within : ∀ line ∈ outerLines, ∀ s ∈ line, Joinable outer inner innerLines s)
    {line : List Segment} (hl : line ∈ outerLines) (hs : s ∈ line) {j : Joined}
    (h : carry outer inner innerLines s = some j) :
    Becomes outer inner (assembled outer inner (carriedLines outer inner outerLines innerLines))
      innerLines (usedSources (carriedLines outer inner outerLines innerLines)) s
      (j.segment (usedSources (carriedLines outer inner outerLines innerLines))
        (usedNames (carriedLines outer inner outerLines innerLines))) := by
  refine ⟨column_of_carry h, fun sourceless => ?_, fun place o origin leads => ?_⟩
  · rw [carry_of_sourceless sourceless] at h
    cases h
    rfl
  · rw [carry_of_origin origin, leads] at h
    cases h
    exact ⟨_, rfl, standsFor_numbered within hl hs origin leads⟩

theorem joins_of_compose (ho : outer.lines = .ok outerLines) (hi : inner.lines = .ok innerLines)
    (h : compose outer inner = .ok composed) : Joins outer inner outerLines innerLines composed
      (usedSources (carriedLines outer inner outerLines innerLines)) := by
  obtain ⟨within, rfl⟩ := (compose_eq_ok_iff ho hi).mp h
  have inside : ∀ i ∈ usedSources (carriedLines outer inner outerLines innerLines),
      i.toNat < inner.sources.length := by
    intro i hi
    rw [usedSources_carriedLines, List.mem_eraseDups] at hi
    obtain ⟨s, hs, reached⟩ := List.mem_filterMap.mp hi
    obtain ⟨line, hl, hs⟩ := List.mem_flatten.mp hs
    obtain ⟨o, leads, rfl⟩ := Option.map_eq_some_iff.mp reached
    obtain ⟨place, origin, -⟩ := Option.bind_eq_some_iff.mp leads
    exact (within line hl s hs place o origin leads).source
  refine ⟨⟨_, lines_assembled inner innerLines ho, ?_⟩, ?_, ?_, ?_, ?_, ?_, rfl, rfl⟩
  · rw [joinedLines, carriedLines, List.map_map, List.forall₂_map_right_iff, List.forall₂_same]
    intro line hl
    rw [Function.comp_apply, List.forall₂_map_right_iff]
    refine forall₂_filterMap (fun s _ => ?_) fun s hs j hj => becomes_of_carry within hl hs hj
    rw [← isSome_carry outer inner, Option.isSome_iff_ne_none]
  · rw [usedSources_carriedLines]
    exact firstUses_eraseDups _
  · rw [assembled, List.map_map]
    refine List.map_congr_left fun i hi => ?_
    rw [Function.comp_apply, List.getElem?_eq_getElem (inside i hi)]
    rfl
  · simp [assembled]
  · intro contents h
    unfold assembled at h
    dsimp only at h
    split at h
    · exact (Option.some.inj h).symm
    · cases h
  · rw [assembled, usedNames_carriedLines]
    exact firstUses_eraseDups _

/-! ## Names of the inner map only -/

theorem nameOf_of_unnamed (unnamed : outer.names = []) :
    nameOf outer inner place o = o.name.bind fun n => inner.names[n.toNat]? := by
  cases inside : o.name with
  | some n => rw [nameOf_of_named inside, Option.bind_some]
  | none =>
    rw [nameOf_of_nameless inside, unnamed]
    cases place.name <;> rfl

/-- If the outer map has no names, there are no more used ones than the inner indexes tell apart. -/
theorem length_usedNames_le (unnamed : outer.names = []) :
    (usedNames (carriedLines outer inner outerLines innerLines)).length ≤ 2 ^ 32 := by
  rw [usedNames_carriedLines]
  have inside : ∀ name ∈ (reachedNames outer inner outerLines innerLines).eraseDups,
      ∃ n : UInt32, inner.names[n.toNat]? = some name := by
    intro name hn
    obtain ⟨s, -, reached⟩ := List.mem_filterMap.mp (List.mem_eraseDups.mp hn)
    obtain ⟨place, -, reached⟩ := Option.bind_eq_some_iff.mp reached
    obtain ⟨o, -, named⟩ := Option.bind_eq_some_iff.mp reached
    rw [nameOf_of_unnamed unnamed] at named
    obtain ⟨n, -, found⟩ := Option.bind_eq_some_iff.mp named
    exact ⟨n, found⟩
  exact length_le_of_words (List.nodup_eraseDups _) inside

/-- Where an outer segment leads to a place that the inner map links to a source, the composed map has
a segment for it, which leads to that source. -/
theorem lookup_compose (h : compose outer inner = .ok composed) (unnamed : outer.names = [])
    (ho : outer.lines = .ok outerLines)
    (ordered : ∀ line ∈ outerLines, line.Pairwise fun s t => s.column < t.column)
    {line : Nat} (short : line < 2 ^ 32) {segments : List Segment}
    (found : outerLines[line]? = some segments) (mem : s ∈ segments) (hp : s.origin = some place)
    {there : Landing} (leads : inner.lookup place.line.toNat place.column.toNat = some there) :
    composed.lookup line s.column.toNat = some there := by
  obtain ⟨_, innerLines, _, _, hi, -⟩ := compose_eq_ok.mp h
  obtain ⟨within, rfl⟩ := (compose_eq_ok_iff ho hi).mp h
  rw [lookup_eq hi, Option.map_eq_some_iff] at leads
  obtain ⟨o, leads, rfl⟩ := leads
  have further : onward innerLines s = some o := by rw [onward, hp, Option.bind_some, leads]
  have stands := standsFor_numbered within (List.mem_of_getElem? found) mem hp further
  have carried : carry outer inner innerLines s =
      some ⟨s.column, some (o.source, o.line, o.column, nameOf outer inner place o)⟩ := by
    rw [carry_of_origin hp, further, Option.map_some]
  have level := pairwise_carriedLines outer inner innerLines ordered
  have line' := getElem?_joinedLines outer inner outerLines innerLines line
  rw [found, Option.map_some] at line'
  have own : traceLine _ s.column = some ⟨s.column, some (numbered outer inner
      (carriedLines outer inner outerLines innerLines) place o)⟩ :=
    traceLine_of_mem (level _ (List.mem_of_getElem? line'))
      (List.mem_map_of_mem (List.mem_filterMap.mpr ⟨s, mem, carried⟩))
  rw [lookup_eq_trace (lines_assembled inner innerLines ho) short s.column.toNat_lt, trace,
    UInt32.toNat_ofNat_of_lt' short, line', UInt32.ofNat_toNat, Option.bind_some, own,
    Option.bind_some, Option.map_some, landing_of_standsFor stands (length_usedNames_le unnamed),
    nameOf_of_unnamed unnamed, landing]

end

end Apportion.PositionMap
