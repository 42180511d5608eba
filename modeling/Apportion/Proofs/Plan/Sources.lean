import Apportion.Apply
import Apportion.Proofs.Path.Relative
import Apportion.Proofs.Path.Tidy
import Apportion.Proofs.Plan.Revisions

/-!
Where the sources of a position map lead. An entry is spelled as the way from the map's destination to
the file it led to before, or to where that file goes (`normalize_join_moveSource`). It leads there
unless the spelling reads as a URL, or the map's root is in the way: a URL root is dropped, and another
one is left in place when the spelling has not changed (`sources_lead_on_iff`).
-/
namespace Apportion

/-- What an entry of a position map leads to. -/
inductive Spot
  | url (text : String)
  | file (path : Path)

namespace Spot

/-- Where an entry of a map in a directory leads. An absent root is as good as an empty one. -/
def ofEntry (dir : Path) (root : Option String) (entry : String) : Spot :=
  if Path.isExternalUrl entry then .url entry
  else if Path.isExternalUrl (root.getD "") then .url (root.getD "" ++ entry)
  else if root.getD "" = "" then .file (dir.join ⟨entry⟩).normalize
  else .file ((dir.join ⟨root.getD ""⟩).join ⟨entry⟩).normalize

/-- What a place becomes when packaged artifacts have gone to their destinations. -/
def follow (paths : PathMap) : Spot → Spot
  | .url text => .url text
  | .file path => .file ((paths.get? path).getD path).normalize

def text : Spot → String
  | .url text => text
  | .file path => path.text

end Spot

namespace Planner

/-! ## Spellings -/

/-- An entry that leads on when it is spelled anew for a map that goes to `dir`. If the map is
`revised` its root is dropped, else it stays. -/
def LeadsOn (dir : Path) (root : Option String) (revised : Bool) (entry spelled : String) : Prop :=
  Path.isExternalUrl entry = true ∨
  if Path.isExternalUrl (root.getD "") then revised = true → spelled = root.getD "" ++ entry
  else
    Path.isExternalUrl spelled = false ∧ (revised = false → root.getD "" = "" ∨
      ((dir.join ⟨root.getD ""⟩).join ⟨spelled⟩).place = (dir.join ⟨spelled⟩).place)

instance (dir : Path) (root : Option String) (revised : Bool) (entry spelled : String) :
    Decidable (LeadsOn dir root revised entry spelled) :=
  inferInstanceAs (Decidable (Path.isExternalUrl entry = true ∨
    if Path.isExternalUrl (root.getD "") then revised = true → spelled = root.getD "" ++ entry
    else
      Path.isExternalUrl spelled = false ∧ (revised = false → root.getD "" = "" ∨
        ((dir.join ⟨root.getD ""⟩).join ⟨spelled⟩).place = (dir.join ⟨spelled⟩).place)))

variable {p : Planner} {packages : List Package} {changes : ChangeSet} {paths : PathMap}
  {a : Artifact} {dir : Path} {root : Option String}

theorem isAbsolute_of_get? (output : p.outputRoot.isAbsolute = true)
    (h : p.finalPaths packages = .ok paths) {path target : Path} (ht : paths.get? path = some target) :
    target.isAbsolute = true := by
  obtain ⟨e, found, rfl⟩ := Option.map_eq_some_iff.mp ht
  have mem := (PathMap.of_ofPairs (Except.mapError_eq_ok.mp h)).2.mem_iff.mp
    (List.mem_of_find?_eq_some found)
  obtain ⟨package, -, mem⟩ := List.mem_flatMap.mp mem
  obtain ⟨b, -, rfl⟩ := List.mem_map.mp mem
  exact Path.isAbsolute_join (Path.isAbsolute_join output _) _

/-- Where a file goes, or the file itself. -/
def follow (paths : PathMap) (place : Path) : Path := (paths.get? place).getD place

theorem isAbsolute_follow (output : p.outputRoot.isAbsolute = true)
    (h : p.finalPaths packages = .ok paths) {place : Path} (hp : place.isAbsolute = true) :
    (follow paths place).isAbsolute = true := by
  unfold follow
  cases ht : paths.get? place with
  | none => exact hp
  | some target => exact isAbsolute_of_get? output h ht

/-- What begins with a URL reads as one. -/
theorem isExternalUrl_append {s : String} (h : Path.isExternalUrl s = true) (t : String) :
    Path.isExternalUrl (s ++ t) = true := by
  unfold Path.isExternalUrl at h ⊢
  simp only [Bool.and_eq_true, decide_eq_true_eq] at h ⊢
  obtain ⟨⟨⟨long, after⟩, first⟩, all⟩ := h
  have colon : (s.toList.takeWhile (· ≠ ':')).length ≠ s.toList.length := by
    intro e
    rw [e, List.drop_length] at after
    simp at after
  rw [String.toList_append, List.takeWhile_append, if_neg colon]
  refine ⟨⟨⟨long, ?_⟩, first⟩, all⟩
  rw [List.length_drop] at after ⊢
  rw [List.length_append]
  omega

theorem isExternalUrl_empty : Path.isExternalUrl "" = false := by decide

theorem ofEntry_bare {s : String} (file : Path.isExternalUrl s = false) :
    Spot.ofEntry dir none s = .file (dir.join ⟨s⟩).normalize := by
  simp [Spot.ofEntry, file, isExternalUrl_empty]

theorem ofEntry_of_file {s : String} (file : Path.isExternalUrl s = false)
    (fileRoot : Path.isExternalUrl (root.getD "") = false) (path : Path) :
    Spot.ofEntry (path.parent.getD ⟨""⟩) root s =
      .file ((sourceBase path root).join ⟨s⟩).normalize := by
  unfold Spot.ofEntry sourceBase
  cases root with
  | none => simp_all
  | some r =>
    simp only [Option.getD_some] at fileRoot
    by_cases empty : r = "" <;> simp [file, fileRoot, empty, isExternalUrl_empty]

/-- From its destination, the spelling of an entry leads to where the entry's file goes. -/
theorem normalize_join_moveSource {base : Path} (hd : dir.isAbsolute = true) {s : String}
    (file : Path.isExternalUrl s = false)
    (ht : (follow paths (base.join ⟨s⟩).normalize).isAbsolute = true) :
    (dir.join ⟨moveSource paths base dir s⟩).normalize =
      (follow paths (base.join ⟨s⟩).normalize).normalize := by
  have spelled : moveSource paths base dir s =
      (dir.relative (follow paths (base.join ⟨s⟩).normalize)).slashed := by
    simp [moveSource, file, follow]
  rw [Path.normalize_eq_iff (Path.isAbsolute_join hd _) ht, spelled,
    Path.place_join_slashed hd ht]

/-- An entry that is spelled anew, or that keeps its spelling, leads where it should exactly if it is
one that leads on. -/
theorem ofEntry_moveSource_iff (path : Path) {s : String} (hd : dir.isAbsolute = true)
    (ht : (follow paths ((sourceBase path root).join ⟨s⟩).normalize).isAbsolute = true)
    (revised : Bool)
    (same : revised = false → moveSource paths (sourceBase path root) dir s = s) :
    Spot.ofEntry dir (if revised then none else root)
        (moveSource paths (sourceBase path root) dir s) =
      (Spot.ofEntry (path.parent.getD ⟨""⟩) root s).follow paths ↔
    LeadsOn dir root revised s (moveSource paths (sourceBase path root) dir s) := by
  cases url : Path.isExternalUrl s with
  | true =>
    have kept : moveSource paths (sourceBase path root) dir s = s := by simp [moveSource, url]
    simp [kept, Spot.ofEntry, url, Spot.follow, LeadsOn]
  | false =>
    have there := normalize_join_moveSource hd url ht
    generalize moveSource paths (sourceBase path root) dir s = spelled at same there ⊢
    cases urlRoot : Path.isExternalUrl (root.getD "") with
    | true =>
      have before : Spot.ofEntry (path.parent.getD ⟨""⟩) root s = .url (root.getD "" ++ s) := by
        simp [Spot.ofEntry, url, urlRoot]
      rw [before, LeadsOn, urlRoot, if_pos rfl, url]
      cases revised with
      | false => simp [same rfl, Spot.ofEntry, url, urlRoot, Spot.follow]
      | true =>
        cases spelledUrl : Path.isExternalUrl spelled with
        | true => simp [Spot.ofEntry, spelledUrl, Spot.follow]
        | false =>
          -- a file is no URL, and neither is its spelling
          have differs : spelled ≠ root.getD "" ++ s := by
            rintro rfl
            rw [isExternalUrl_append urlRoot] at spelledUrl
            cases spelledUrl
          simp [ofEntry_bare spelledUrl, Spot.follow, differs]
    | false =>
      have after : (Spot.ofEntry (path.parent.getD ⟨""⟩) root s).follow paths =
          .file (dir.join ⟨spelled⟩).normalize := by
        rw [ofEntry_of_file url urlRoot path, there]
        rfl
      rw [after, LeadsOn, urlRoot, if_neg Bool.false_ne_true, url]
      cases revised with
      | true =>
        cases spelledUrl : Path.isExternalUrl spelled with
        | true => simp [Spot.ofEntry, spelledUrl]
        | false => simp [ofEntry_bare spelledUrl]
      | false =>
        rw [same rfl]
        by_cases empty : root.getD "" = ""
        · simp [Spot.ofEntry, url, empty, isExternalUrl_empty]
        · have places := Path.normalize_eq_iff (Path.isAbsolute_join (Path.isAbsolute_join hd
            ⟨root.getD ""⟩) ⟨s⟩) (Path.isAbsolute_join hd ⟨s⟩)
          simp [Spot.ofEntry, url, urlRoot, empty, places]

/-! ## The plan -/

/-- A position map has a name, and so a parent. -/
theorem exists_parent_of_isMap (h : a.isMap = true) : ∃ dir, a.path.parent = some dir := by
  have map : Kind.ofPath a.path = .positionMap := beq_iff_eq.mp h
  obtain ⟨s, named⟩ := Path.exists_fileName_of_kind (p := a.path) (by simp [map])
  exact Path.exists_parent named

theorem isAbsolute_finalDirectory (output : p.outputRoot.isAbsolute = true)
    (h : p.finalPaths packages = .ok paths) (hd : finalDirectory paths a.path = .ok dir) :
    dir.isAbsolute = true := by
  unfold finalDirectory at hd
  split at hd
  · rename_i found
    cases hd
    obtain ⟨target, ht, parent⟩ := Option.bind_eq_some_iff.mp found
    exact Path.isAbsolute_parent (isAbsolute_of_get? output h ht) parent
  · cases hd

theorem isAbsolute_sourceBase {path old : Path} (absolute : path.isAbsolute = true)
    (parent : path.parent = some old) (root : Option String) :
    (sourceBase path root).isAbsolute = true := by
  have ho := Path.isAbsolute_parent absolute parent
  unfold sourceBase
  rw [parent, Option.getD_some]
  split
  · split
    · exact ho
    · exact Path.isAbsolute_join ho _
  · exact ho

/-- A packaged position map can be written with the sources planned for it, as many as before, and
they are the moved ones. -/
theorem revisedMap_of_plan (h : p.plan packages = .ok changes)
    (ha : a ∈ packages.flatMap (·.artifacts)) (map : a.isMap = true) :
    ∃ paths m dir written, p.finalPaths packages = .ok paths ∧
      PositionMap.parse a.content = .ok m ∧ finalDirectory paths a.path = .ok dir ∧
      Apply.revisedMap changes a.path a.content = .ok written ∧
      written.sources = movedSources paths a.path dir m ∧
      (written.sourceRoot = if (changes.sourcesOf a.path).isSome then none else m.sourceRoot) ∧
      (changes.sourcesOf a.path = none → movedSources paths a.path dir m = m.sources) := by
  obtain ⟨paths, m, dir, hp, parsed, destination, planned⟩ := sourcesOf_of_plan h ha map
  by_cases same : movedSources paths a.path dir m = m.sources
  · rw [if_pos same] at planned
    refine ⟨paths, m, dir, m, hp, parsed, destination, ?_, same.symm, by simp [planned],
      fun _ => same⟩
    unfold Apply.revisedMap
    rw [parsed, planned]
    rfl
  · rw [if_neg same] at planned
    refine ⟨paths, m, dir, { m with sources := movedSources paths a.path dir m, sourceRoot := none },
      hp, parsed, destination, ?_, rfl, by simp [planned], by simp [planned]⟩
    have count : (movedSources paths a.path dir m).length = m.sources.length := by
      simp [movedSources]
    unfold Apply.revisedMap
    rw [parsed, planned]
    exact if_pos count

/-- A packaged position map is written with as many sources as it had, absent ones where they were.
Each source leads to the URL or the file it led to before, or to where that file goes, exactly if
every one leads on as it is spelled. -/
theorem sources_lead_on_iff (output : p.outputRoot.isAbsolute = true)
    (absolute : ∀ package ∈ packages, ∀ a ∈ package.artifacts, a.path.isAbsolute = true)
    (h : p.plan packages = .ok changes) (ha : a ∈ packages.flatMap (·.artifacts))
    (map : a.isMap = true) :
    ∃ paths m old dir written, p.finalPaths packages = .ok paths ∧
      PositionMap.parse a.content = .ok m ∧ a.path.parent = some old ∧
      finalDirectory paths a.path = .ok dir ∧
      Apply.revisedMap changes a.path a.content = .ok written ∧
      written.sources.map Option.isNone = m.sources.map Option.isNone ∧
      (written.sources.map (Option.map (Spot.ofEntry dir written.sourceRoot)) =
        m.sources.map (Option.map fun s => (Spot.ofEntry old m.sourceRoot s).follow paths) ↔
      ∀ s, some s ∈ m.sources → LeadsOn dir m.sourceRoot (changes.sourcesOf a.path).isSome s
        (moveSource paths (sourceBase a.path m.sourceRoot) dir s)) := by
  obtain ⟨paths, m, dir, written, hp, parsed, destination, revised, sources, root, unplanned⟩ :=
    revisedMap_of_plan h ha map
  obtain ⟨old, parent⟩ := exists_parent_of_isMap map
  refine ⟨paths, m, old, dir, written, hp, parsed, parent, destination, revised, ?_, ?_⟩
  · rw [sources, movedSources, List.map_map]
    exact List.map_congr_left fun s _ => by cases s <;> rfl
  obtain ⟨package, hpackage, ha'⟩ := List.mem_flatMap.mp ha
  have hd := isAbsolute_finalDirectory output hp destination
  have hb := isAbsolute_sourceBase (absolute package hpackage a ha') parent m.sourceRoot
  have each : ∀ s, some s ∈ m.sources →
      (Spot.ofEntry dir written.sourceRoot (moveSource paths (sourceBase a.path m.sourceRoot) dir s) =
        (Spot.ofEntry old m.sourceRoot s).follow paths ↔
      LeadsOn dir m.sourceRoot (changes.sourcesOf a.path).isSome s
        (moveSource paths (sourceBase a.path m.sourceRoot) dir s)) := by
    intro s hs
    have there := isAbsolute_follow output hp
      (Path.settled_normalize (Path.isAbsolute_join hb ⟨s⟩)).absolute
    have same : (changes.sourcesOf a.path).isSome = false →
        moveSource paths (sourceBase a.path m.sourceRoot) dir s = s := by
      intro none
      have id := unplanned (Option.isSome_eq_false_iff.mp none |> Option.isNone_iff_eq_none.mp)
      have mapped := List.map_inj_left.mp (id.trans (List.map_id m.sources).symm) (some s) hs
      simpa using mapped
    have iff := ofEntry_moveSource_iff a.path hd there
      (changes.sourcesOf a.path).isSome same
    rwa [parent, Option.getD_some, ← root] at iff
  rw [sources, movedSources, List.map_map, List.map_inj_left]
  constructor
  · intro all s hs
    exact (each s hs).mp (by simpa using all (some s) hs)
  · intro all entry hs
    cases entry with
    | none => rfl
    | some s => simpa using (each s hs).mpr (all s hs)

/-- Without a root, a source beside the package and the map itself are both found again. -/
theorem sources_lead_on_iff_bare :
    let text := "\x7b\"version\":3,\"sources\":[\"a.ts\",null,\"u.js.map\"],\"mappings\":\"\"\x7d"
    let packages := Partition.packages ⟨⟨"/d"⟩, ".js"⟩ [.file ⟨"u.js"⟩]
      [⟨⟨"/d/u.js.map"⟩, text, [], false⟩]
    ∃ changes paths dir written,
      (Planner.mk ⟨"/d"⟩ ⟨"/p"⟩ "package.json").plan packages = .ok changes ∧
      finalDirectory paths ⟨"/d/u.js.map"⟩ = .ok dir ∧
      Apply.revisedMap changes ⟨"/d/u.js.map"⟩ text = .ok written ∧
      written.sources.map (Option.map (Spot.ofEntry dir written.sourceRoot)) =
        [some "a.ts", none, some "u.js.map"].map
          (Option.map fun s => (Spot.ofEntry ⟨"/d"⟩ none s).follow paths) := by
  intro text packages
  have planned := Except.eq_ok_of_isSome
    (x := (Planner.mk ⟨"/d"⟩ ⟨"/p"⟩ "package.json").plan packages) (by decide +kernel) ⟨[]⟩
  have final := Except.eq_ok_of_isSome (x := (Planner.mk ⟨"/d"⟩ ⟨"/p"⟩
    "package.json").finalPaths packages) (by decide +kernel) ⟨[]⟩
  have member : Artifact.mk ⟨"/d/u.js.map"⟩ text [] false ∈
      packages.flatMap (·.artifacts) := List.mem_flatMap.mpr ⟨_, List.mem_cons_self,
    List.mem_filter.mpr ⟨List.mem_cons_self, by decide +kernel⟩⟩
  obtain ⟨paths, m, old, dir, written, hp, parsed, parent, destination, revised, -, iff⟩ :=
    sources_lead_on_iff (p := ⟨⟨"/d"⟩, ⟨"/p"⟩, "package.json"⟩)
      (a := ⟨⟨"/d/u.js.map"⟩, text, [], false⟩) (by decide +kernel)
      (by decide +kernel) planned member (by decide +kernel)
  cases final.symm.trans hp
  have read := Except.eq_ok_of_isSome (x := PositionMap.parse text) (by decide +kernel)
    ⟨none, none, [], none, [], ""⟩
  have sources : m.sources = [some "a.ts", none, some "u.js.map"] := by
    rw [← Except.ok.inj (read.symm.trans parsed)]
    decide +kernel
  have root : m.sourceRoot = none := by
    rw [← Except.ok.inj (read.symm.trans parsed)]
    decide +kernel
  have here : old = ⟨"/d"⟩ := by
    have text := congrArg (Option.map Path.text) parent
    rw [show Option.map Path.text (Path.parent ⟨"/d/u.js.map"⟩) =
      some "/d" by decide +kernel] at text
    cases old
    exact congrArg Path.mk (Option.some.inj text).symm
  have there := Except.eq_ok_of_isSome (x := finalDirectory _ _) (by rw [destination]; rfl) ⟨""⟩
  rw [here, sources, root] at iff
  refine ⟨_, _, dir, written, planned, destination, revised, iff.mpr ?_⟩
  cases there.symm.trans destination
  generalize (ChangeSet.sourcesOf _ _).isSome = spelledAnew
  intro s hs
  simp only [List.mem_cons, Option.some.injEq, reduceCtorEq, List.not_mem_nil, or_false,
    false_or] at hs
  rcases hs with rfl | rfl <;> cases spelledAnew <;> decide +kernel

/-- A root is left in place when the entries happen to be spelled as before: from the new directory, it
leads elsewhere. -/
theorem root_left_in_place :
    let text := "\x7b\"version\":3,\"sourceRoot\":\"r\",\"sources\":[\"../../a.ts\"],\"mappings\":\"\"\x7d"
    let packages := Partition.packages ⟨⟨"/d"⟩, ".js"⟩ [.file ⟨"u.js"⟩]
      [⟨⟨"/d/u.js.map"⟩, text, [], false⟩]
    ∃ changes paths dir m written, (Path.mk "/d").Settled ∧ (Path.mk "/p").Settled ∧
      (Path.mk "/d/u.js.map").Settled ∧
      (Planner.mk ⟨"/d"⟩ ⟨"/p"⟩ "package.json").plan packages = .ok changes ∧
      (Planner.mk ⟨"/d"⟩ ⟨"/p"⟩ "package.json").finalPaths packages = .ok paths ∧
      finalDirectory paths ⟨"/d/u.js.map"⟩ = .ok dir ∧
      PositionMap.parse text = .ok m ∧
      Apply.revisedMap changes ⟨"/d/u.js.map"⟩ text = .ok written ∧
      written.sources.map (Option.map (Spot.ofEntry dir written.sourceRoot)) ≠
        m.sources.map (Option.map fun s => (Spot.ofEntry ⟨"/d"⟩ m.sourceRoot s).follow paths) := by
  intro text packages
  have planned := Except.eq_ok_of_isSome
    (x := (Planner.mk ⟨"/d"⟩ ⟨"/p"⟩ "package.json").plan packages) (by decide +kernel) ⟨[]⟩
  have final := Except.eq_ok_of_isSome (x := (Planner.mk ⟨"/d"⟩ ⟨"/p"⟩
    "package.json").finalPaths packages) (by decide +kernel) ⟨[]⟩
  have read := Except.eq_ok_of_isSome (x := PositionMap.parse text) (by decide +kernel)
    ⟨none, none, [], none, [], ""⟩
  refine ⟨_, _, _, _, _, by decide +kernel, by decide +kernel, by decide +kernel, planned, final,
    Except.eq_ok_of_isSome (by decide +kernel) ⟨""⟩, read,
    Except.eq_ok_of_isSome (by decide +kernel) ⟨none, none, [], none, [], ""⟩, ?_⟩
  intro same
  exact absurd (congrArg (List.map (Option.map Spot.text)) same) (by decide +kernel)

end Planner
end Apportion
