import Apportion.Proofs.PositionMap.Nearest

/-!
Three stages. If every segment of the middle map leads on, composing the last two maps first makes the
same map as composing the first two first (`compose_assoc`): the maps in between number their sources
differently (`carry_composed`), and the numbers do not show in what is made of them
(`assembled_reindexed`).
-/
namespace Apportion.PositionMap

/-! ## Sources under other indexes -/

/-- A joined segment with the indexes that its source has in a table. -/
def Joined.reindex (table : List UInt32) (j : Joined) : Joined :=
  ⟨j.column, j.origin.map fun (source, rest) => (indexIn source table, rest)⟩

section
variable {outer inner : PositionMap} {joined all : List (List Joined)}

theorem origins_reindex (table : List UInt32) (joined : List (List Joined)) :
    (joined.map (List.map (Joined.reindex table))).flatten.filterMap (·.origin) =
      (joined.flatten.filterMap (·.origin)).map fun (source, rest) => (indexIn source table, rest) := by
  rw [← List.map_flatten, List.filterMap_map, List.map_filterMap]
  rfl

theorem usedNames_reindex (table : List UInt32) (joined : List (List Joined)) :
    usedNames (joined.map (List.map (Joined.reindex table))) = usedNames joined := by
  rw [usedNames, origins_reindex, List.filterMap_map, usedNames]
  rfl

theorem indexIn_usedSources_inj (sub : usedSources joined ⊆ usedSources all) {i k : UInt32}
    (hi : i ∈ usedSources joined) (hk : k ∈ usedSources joined)
    (h : indexIn i (usedSources all) = indexIn k (usedSources all)) : i = k :=
  indexIn_inj (sub hi) (sub hk) (length_le_of_nodup (List.nodup_eraseDups _)) h

theorem usedSources_reindex (sub : usedSources joined ⊆ usedSources all) :
    usedSources (joined.map (List.map (Joined.reindex (usedSources all)))) =
      (usedSources joined).map fun i => indexIn i (usedSources all) := by
  have renamed : ((joined.flatten.filterMap (·.origin)).map
      fun (source, rest) => (indexIn source (usedSources all), rest)).map (·.1) =
      ((joined.flatten.filterMap (·.origin)).map (·.1)).map fun i => indexIn i (usedSources all) := by
    rw [List.map_map, List.map_map]
    rfl
  rw [usedSources, origins_reindex, renamed]
  refine List.eraseDups_map _ fun i hi k hk => indexIn_usedSources_inj sub ?_ ?_
  · exact List.mem_eraseDups.mpr hi
  · exact List.mem_eraseDups.mpr hk

theorem segment_reindex (sub : usedSources joined ⊆ usedSources all) (names : List String)
    {line : List Joined} (hl : line ∈ joined) {j : Joined} (hj : j ∈ line) :
    (j.reindex (usedSources all)).segment
        ((usedSources joined).map fun i => indexIn i (usedSources all)) names =
      j.segment (usedSources joined) names := by
  obtain ⟨column, origin⟩ := j
  cases origin with
  | none => rfl
  | some origin =>
    obtain ⟨source, rest⟩ := origin
    have used : source ∈ usedSources joined :=
      List.mem_eraseDups.mpr (List.mem_map.mpr ⟨(source, rest), List.mem_filterMap.mpr
        ⟨_, List.mem_flatten.mpr ⟨line, hl, hj⟩, rfl⟩, rfl⟩)
    have index : indexIn (indexIn source (usedSources all))
        ((usedSources joined).map fun i => indexIn i (usedSources all)) =
          indexIn source (usedSources joined) :=
      indexIn_map fun k hk => indexIn_usedSources_inj sub hk used
    simp only [Joined.reindex, Joined.segment, Option.map_some, index]

/-- A map whose sources are found by their indexes in a composed map is the map whose sources are
found in the inner one. -/
theorem assembled_reindexed {first second last : PositionMap}
    (sub : usedSources joined ⊆ usedSources all) (file : first.file = second.file) :
    assembled first (assembled outer last all)
        (joined.map (List.map (Joined.reindex (usedSources all)))) =
      assembled second last joined := by
  have contents : (usedSources joined).map (fun i =>
      (assembled outer last all).contentAt (indexIn i (usedSources all))) =
        (usedSources joined).map last.contentAt :=
    List.map_congr_left fun i hi => contentAt_assembled outer last all (sub hi)
  have sources : (usedSources joined).map (fun i =>
      (assembled outer last all).sources[(indexIn i (usedSources all)).toNat]?.join) =
        (usedSources joined).map fun i => last.sources[i.toNat]?.join := by
    refine List.map_congr_left fun i hi => ?_
    have found := getElem?_indexIn (sub hi) (length_le_of_nodup (List.nodup_eraseDups _))
    rw [assembled, List.getElem?_map, found]
    rfl
  have lines : joinedLines (joined.map (List.map (Joined.reindex (usedSources all)))) =
      joinedLines joined := by
    rw [joinedLines, usedSources_reindex sub, usedNames_reindex, List.map_map, joinedLines]
    refine List.map_congr_left fun line hl => ?_
    rw [Function.comp_apply, List.map_map]
    exact List.map_congr_left fun j hj => segment_reindex sub _ hl hj
  simp only [assembled, lines, usedSources_reindex sub, usedNames_reindex, List.map_map, file]
  simp only [assembled] at contents sources
  simp only [Function.comp_def, contents, sources]

end

/-! ## Three maps -/

section
variable {a b c : PositionMap} {aLines bLines cLines : Lines} {s t : Segment} {place o : Origin}

/-- If every segment leads on, the segment that answers in a composed map is what the outer segment
that answers becomes. -/
theorem segmentAt_composed (hc : c.lines = .ok cLines)
    (complete : ∀ line ∈ bLines, ∀ t ∈ line, isCarried cLines t = true) (line column : Nat) :
    segmentAt (joinedLines (carriedLines b c bLines cLines)) line column =
      (segmentAt bLines line column).bind fun t => (carry b c cLines t).map
        (Joined.segment (usedSources (carriedLines b c bLines cLines))
          (usedNames (carriedLines b c bLines cLines))) := by
  unfold segmentAt
  rw [getElem?_joinedLines]
  cases found : bLines[line]? with
  | none => rfl
  | some segments =>
    have all : (segments.filter fun t => c.answers t && t.column.toNat ≤ column) =
        segments.filter fun t => t.column.toNat ≤ column := by
      refine List.filter_congr fun t ht => ?_
      rw [answers_eq_isCarried hc, complete segments (List.mem_of_getElem? found) t ht,
        Bool.true_and]
    simp only [Option.map_some, Option.bind_some, getLast?_carriedLine hc, all]

/-- A segment that leads nowhere in the middle map leads nowhere in what this is composed to. -/
theorem onward_composed_eq_none (hc : c.lines = .ok cLines)
    (complete : ∀ line ∈ bLines, ∀ t ∈ line, isCarried cLines t = true)
    (origin : s.origin = some place) (leads : onward bLines s = none) :
    onward (joinedLines (carriedLines b c bLines cLines)) s = none := by
  rw [onward_of_origin origin] at leads ⊢
  rw [segmentAt_composed hc complete]
  cases found : segmentAt bLines place.line.toNat place.column.toNat with
  | none => rfl
  | some t =>
    rw [found, Option.bind_some] at leads
    rw [Option.bind_some, carry_of_sourceless leads]
    rfl

/-- A segment that leads to an origin of the middle map leads on to where the last map leads from
there. -/
theorem onward_composed_eq_some (hc : c.lines = .ok cLines)
    (complete : ∀ line ∈ bLines, ∀ t ∈ line, isCarried cLines t = true)
    (origin : s.origin = some place) (leads : onward bLines s = some o) :
    ∃ line ∈ bLines, ∃ t ∈ line, t.origin = some o ∧ ∃ last, onward cLines t = some last ∧
      onward (joinedLines (carriedLines b c bLines cLines)) s =
        some (numbered b c (carriedLines b c bLines cLines) o last) := by
  rw [onward_of_origin origin] at leads ⊢
  obtain ⟨t, found, there⟩ := Option.bind_eq_some_iff.mp leads
  obtain ⟨line, hl, ht⟩ := exists_mem_of_segmentAt found
  have carried := complete line hl t ht
  rw [isCarried, there, Option.isNone_some, Bool.false_or] at carried
  obtain ⟨last, further⟩ := Option.isSome_iff_exists.mp carried
  refine ⟨line, hl, t, ht, there, last, further, ?_⟩
  rw [segmentAt_composed hc complete, found, Option.bind_some, carry_of_origin there, further]
  rfl

/-- Three origins, each leading to the next, have the same name whichever two are composed first. -/
theorem nameOf_composed {ab bc : PositionMap} {last first between : Origin}
    (within : Within b c o last)
    (hab : (first.name.bind fun n => ab.names[n.toNat]?) = nameOf a b place o)
    (hbc : (between.name.bind fun n => bc.names[n.toNat]?) = nameOf b c o last)
    (named : between.name.isSome = (nameOf b c o last).isSome) :
    nameOf ab c first last = nameOf a bc place between := by
  rw [isSome_nameOf within] at named
  cases inner : last.name with
  | some n =>
    obtain ⟨w, hw⟩ := Option.isSome_iff_exists.mp (named.trans (by rw [inner]; rfl))
    rw [hw, Option.bind_some] at hbc
    rw [nameOf_of_named inner, nameOf_of_named hw, hbc, nameOf_of_named inner]
  | none =>
    rw [nameOf_of_nameless inner, hab]
    cases middle : o.name with
    | some m =>
      obtain ⟨w, hw⟩ := Option.isSome_iff_exists.mp (named.trans (by rw [inner, middle]; rfl))
      rw [hw, Option.bind_some] at hbc
      rw [nameOf_of_named middle, nameOf_of_named hw, hbc, nameOf_of_nameless inner, middle,
        Option.bind_some]
    | none =>
      have nameless : between.name = none := by
        rw [inner, middle] at named
        exact Option.isNone_iff_eq_none.mp (Option.isSome_eq_false_iff.mp named)
      rw [nameOf_of_nameless middle, nameOf_of_nameless nameless]

/-- Segments are carried over twice one by one. -/
theorem carriedLines_carriedLines (ab : PositionMap) :
    carriedLines ab c (joinedLines (carriedLines a b aLines bLines)) cLines =
      aLines.map fun line => line.filterMap fun s => (carry a b bLines s).bind fun j =>
        carry ab c cLines (j.segment (usedSources (carriedLines a b aLines bLines))
          (usedNames (carriedLines a b aLines bLines))) := by
  rw [joinedLines]
  generalize usedSources (carriedLines a b aLines bLines) = sources
  generalize usedNames (carriedLines a b aLines bLines) = names
  simp only [carriedLines, List.map_map]
  refine List.map_congr_left fun line _ => ?_
  simp only [Function.comp_apply, List.filterMap_map, List.filterMap_filterMap]

/-- Every source of the last map that the first two lead on to is used by the last two. -/
theorem usedSources_composed (ab : PositionMap) :
    usedSources (carriedLines ab c (joinedLines (carriedLines a b aLines bLines)) cLines) ⊆
      usedSources (carriedLines b c bLines cLines) := by
  intro i hi
  rw [usedSources_carriedLines, List.mem_eraseDups] at hi
  obtain ⟨after, hafter, reached⟩ := List.mem_filterMap.mp hi
  obtain ⟨last, leads, rfl⟩ := Option.map_eq_some_iff.mp reached
  obtain ⟨_, hline, hsegment⟩ := List.mem_flatten.mp hafter
  obtain ⟨_, hjoined, rfl⟩ := List.mem_map.mp hline
  obtain ⟨j, hj, rfl⟩ := List.mem_map.mp hsegment
  obtain ⟨line, -, rfl⟩ := List.mem_map.mp hjoined
  obtain ⟨s, -, carried⟩ := List.mem_filterMap.mp hj
  cases origin : s.origin with
  | none =>
    rw [carry_of_sourceless origin] at carried
    cases carried
    cases leads
  | some place =>
    rw [carry_of_origin origin] at carried
    obtain ⟨o, first, rfl⟩ := Option.map_eq_some_iff.mp carried
    rw [onward_of_origin origin] at first
    obtain ⟨t, found, there⟩ := Option.bind_eq_some_iff.mp first
    obtain ⟨line', hl', ht⟩ := exists_mem_of_segmentAt found
    -- what the first two maps lead to has the place of `o`, from where the last one leads on
    exact mem_usedSources hl' ht ((onward_of_origin there).trans leads)

section
variable (withinAB : ∀ line ∈ aLines, ∀ s ∈ line, Joinable a b bLines s)
  (withinBC : ∀ line ∈ bLines, ∀ t ∈ line, Joinable b c cLines t)
  (hc : c.lines = .ok cLines)
  (complete : ∀ line ∈ bLines, ∀ t ∈ line, isCarried cLines t = true)
  (fewAB : (usedNames (carriedLines a b aLines bLines)).length ≤ 2 ^ 32)
  (fewBC : (usedNames (carriedLines b c bLines cLines)).length ≤ 2 ^ 32)
include withinAB withinBC hc complete fewAB fewBC

/-- Composed either way, a segment is carried over to the same place, with the source under its index
in the map of the last two stages. -/
theorem carry_composed {line : List Segment} (hl : line ∈ aLines) (hs : s ∈ line) :
    carry a (assembled b c (carriedLines b c bLines cLines))
        (joinedLines (carriedLines b c bLines cLines)) s =
      ((carry a b bLines s).bind fun j =>
        carry (assembled a b (carriedLines a b aLines bLines)) c cLines
          (j.segment (usedSources (carriedLines a b aLines bLines))
            (usedNames (carriedLines a b aLines bLines)))).map
        (Joined.reindex (usedSources (carriedLines b c bLines cLines))) := by
  cases origin : s.origin with
  | none =>
    rw [carry_of_sourceless origin, carry_of_sourceless origin, Option.bind_some,
      carry_of_sourceless rfl]
    rfl
  | some place =>
    rw [carry_of_origin origin, carry_of_origin origin]
    cases leads : onward bLines s with
    | none =>
      rw [onward_composed_eq_none hc complete origin leads]
      rfl
    | some o =>
      obtain ⟨line', hl', t, ht, there, last, further, composed⟩ :=
        onward_composed_eq_some hc complete origin leads
      have first := standsFor_numbered withinAB hl hs origin leads
      have between := standsFor_numbered withinBC hl' ht there further
      have names := nameOf_composed (withinBC line' hl' t ht o last there further)
        (first.name fewAB) (between.name fewBC) (isSome_name_of_standsFor between)
      have same : onward cLines ⟨s.column, some (numbered a b (carriedLines a b aLines bLines)
          place o)⟩ = some last := by
        rw [← further, onward_of_origin rfl, onward_of_origin there]
        rfl
      rw [composed, Option.map_some, Option.map_some, Option.bind_some]
      have segment : Joined.segment (usedSources (carriedLines a b aLines bLines))
          (usedNames (carriedLines a b aLines bLines))
          ⟨s.column, some (o.source, o.line, o.column, nameOf a b place o)⟩ =
            ⟨s.column, some (numbered a b (carriedLines a b aLines bLines) place o)⟩ := rfl
      rw [segment, carry_of_origin rfl, same, Option.map_some, Option.map_some, names]
      rfl

/-- Composed either way, the same segments are carried over. -/
theorem carriedLines_composed :
    carriedLines a (assembled b c (carriedLines b c bLines cLines)) aLines
        (joinedLines (carriedLines b c bLines cLines)) =
      (carriedLines (assembled a b (carriedLines a b aLines bLines)) c
        (joinedLines (carriedLines a b aLines bLines)) cLines).map
          (List.map (Joined.reindex (usedSources (carriedLines b c bLines cLines)))) := by
  rw [carriedLines_carriedLines, List.map_map, carriedLines]
  refine List.map_congr_left fun line hl => ?_
  rw [Function.comp_apply, List.map_filterMap]
  exact List.filterMap_congr fun s hs =>
    carry_composed withinAB withinBC hc complete fewAB fewBC hl hs

omit fewAB in
/-- What is composed last is joined within the tables of what is composed first. -/
theorem joinable_composed {line : List Segment} (hl : line ∈ aLines) (hs : s ∈ line) :
    Joinable a (assembled b c (carriedLines b c bLines cLines))
      (joinedLines (carriedLines b c bLines cLines)) s := by
  intro place between origin leads
  cases first : onward bLines s with
  | none =>
    rw [onward_composed_eq_none hc complete origin first] at leads
    cases leads
  | some o =>
    obtain ⟨line', hl', t, ht, there, last, further, composed⟩ :=
      onward_composed_eq_some hc complete origin first
    cases leads.symm.trans composed
    have within := withinBC line' hl' t ht o last there further
    have stands := standsFor_numbered withinBC hl' ht there further
    have same := isSome_name_of_standsFor stands
    refine ⟨?_, fun n named => ?_, fun nameless n named => ?_⟩
    · have found := stands.source
      rw [List.getElem?_eq_getElem within.source] at found
      exact (List.getElem?_eq_some_iff.mp found).1
    · have found := stands.name fewBC
      rw [named] at found same
      obtain ⟨name, hn⟩ := Option.isSome_iff_exists.mp same.symm
      rw [hn, Option.bind_some] at found
      exact (List.getElem?_eq_some_iff.mp found).1
    · have unnamed := same.symm
      rw [nameless, Option.isSome_none, isSome_nameOf within, Bool.or_eq_false_iff] at unnamed
      exact (withinAB line hl s hs place o origin first).outerName
        (Option.isNone_iff_eq_none.mp (Option.isSome_eq_false_iff.mp unnamed.2)) n named

end

/-- If every segment of the middle map leads on, then it makes no difference which two of three maps
are composed first. Indexes of names are words: what is composed first has no more names than words
tell apart. -/
theorem compose_assoc {a b c ab bc abc : PositionMap} {bLines cLines : Lines}
    (hb : b.lines = .ok bLines) (hc : c.lines = .ok cLines)
    (complete : ∀ line ∈ bLines, ∀ t ∈ line, t.origin ≠ none → onward cLines t ≠ none)
    (hbc : compose b c = .ok bc) (hab : compose a b = .ok ab) (habc : compose ab c = .ok abc)
    (fewAB : ab.names.length ≤ 2 ^ 32) (fewBC : bc.names.length ≤ 2 ^ 32) :
    compose a bc = .ok abc ∧ composeChain [a, b, c] = .ok abc := by
  have chained : composeChain [a, b, c] = .ok abc := by
    rw [composeChain, List.foldlM_cons, hab]
    exact (bind_pure _).trans habc
  refine ⟨?_, chained⟩
  obtain ⟨aLines, _, _, ha, -⟩ := compose_eq_ok.mp hab
  obtain ⟨withinAB, rfl⟩ := (compose_eq_ok_iff ha hb).mp hab
  obtain ⟨withinBC, rfl⟩ := (compose_eq_ok_iff hb hc).mp hbc
  obtain ⟨-, rfl⟩ := (compose_eq_ok_iff (lines_assembled b bLines ha) hc).mp habc
  have carried : ∀ line ∈ bLines, ∀ t ∈ line, isCarried cLines t = true := by
    intro line hl t ht
    cases origin : t.origin with
    | none => simp [isCarried, origin]
    | some o =>
      have leads := complete line hl t ht (by simp [origin])
      rw [isCarried, Option.isSome_iff_ne_none.mpr leads, Bool.or_true]
  refine (compose_eq_ok_iff ha (lines_assembled c cLines hb)).mpr
    ⟨fun line hl s hs => joinable_composed withinAB withinBC hc carried fewBC hl hs, ?_⟩
  rw [carriedLines_composed withinAB withinBC hc carried fewAB fewBC]
  exact (assembled_reindexed (usedSources_composed _) rfl).symm

/-- Three maps whose sources and names have other indexes from stage to stage. -/
theorem compose_assoc_renumbered :
    let aLines : Lines := [[⟨0, some ⟨0, 0, 4, none⟩⟩, ⟨5, none⟩, ⟨8, some ⟨0, 0, 0, some 0⟩⟩]]
    let bLines : Lines := [[⟨0, some ⟨1, 0, 2, none⟩⟩, ⟨3, some ⟨0, 1, 0, some 1⟩⟩]]
    let cLines : Lines := [[⟨0, some ⟨2, 5, 1, none⟩⟩], [⟨0, some ⟨1, 7, 0, none⟩⟩]]
    let a := ofLines (some "a.js") [some "b.js"] ["a"] aLines
    let b := ofLines none [some "c.js", some "d.js"] ["unused", "b"] bLines
    let c := ofLines none [none, some "x.ts", some "y.ts"] [] cLines
    let ab := ofLines (some "a.js") [some "c.js", some "d.js"] ["b", "a"]
      [[⟨0, some ⟨0, 1, 0, some 0⟩⟩, ⟨5, none⟩, ⟨8, some ⟨1, 0, 2, some 1⟩⟩]]
    let bc := ofLines none [some "y.ts", some "x.ts"] ["b"]
      [[⟨0, some ⟨0, 5, 1, none⟩⟩, ⟨3, some ⟨1, 7, 0, some 0⟩⟩]]
    let abc := ofLines (some "a.js") [some "x.ts", some "y.ts"] ["b", "a"]
      [[⟨0, some ⟨0, 7, 0, some 0⟩⟩, ⟨5, none⟩, ⟨8, some ⟨1, 5, 1, some 1⟩⟩]]
    compose b c = .ok bc ∧ compose a b = .ok ab ∧ compose ab c = .ok abc ∧
      compose a bc = .ok abc ∧ composeChain [a, b, c] = .ok abc := by
  intro aLines bLines cLines a b c ab bc abc
  have ha : a.lines = .ok aLines := lines_of_encode rfl (by decide) (by decide)
  have hb : b.lines = .ok bLines := lines_of_encode rfl (by decide) (by decide)
  have hc : c.lines = .ok cLines := lines_of_encode rfl (by decide) (by decide)
  have read : ab.lines = .ok _ := lines_of_encode rfl (by decide) (by decide)
  have hab : compose a b = .ok ab :=
    compose_eq_ok.mpr ⟨_, _, _, ha, hb, rfl, by decide +kernel⟩
  have hbc : compose b c = .ok bc :=
    compose_eq_ok.mpr ⟨_, _, _, hb, hc, rfl, by decide +kernel⟩
  have habc : compose ab c = .ok abc :=
    compose_eq_ok.mpr ⟨_, _, _, read, hc, rfl, by decide +kernel⟩
  exact ⟨hbc, hab, habc, compose_assoc hb hc (by decide) hbc hab habc (by decide) (by decide)⟩

end
end Apportion.PositionMap
