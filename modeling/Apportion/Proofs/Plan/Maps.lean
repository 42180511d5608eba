import Apportion.Proofs.Path.Tidy
import Apportion.Proofs.Plan.Accounting

/-!
Position maps and the files they belong to. The map beside a code file or a declaration belongs to the
modules that the file belongs to (`Partition.owns_map_iff`), and goes to where the map beside the
file's destination is (`components_finalPath_map`), so that a plan never parts the two
(`maps_stay_beside`).
-/
namespace Apportion

namespace Path
open Text

theorem ofSegment_eq_name {segment : List Char} {s : String}
    (h : Component.ofSegment segment = some (.name s)) : String.ofList segment = s := by
  unfold Component.ofSegment at h
  split at h
  · cases h
  · split at h <;> cases h
    rfl

theorem endsIn_ofParts (init : List (List Char)) (last : List Char) :
    (ofParts none (init ++ [last])).EndsIn (String.ofList last) := by
  refine ⟨String.ofList (init.flatMap (· ++ ['/'])), ?_, ?_⟩
  · rcases List.eq_nil_or_concat init with rfl | ⟨front, segment, rfl⟩
    · exact .inl rfl
    · exact .inr (by simp)
  · rw [ofParts, join_concat, String.ofList_append]

/-- What is left of a path below another ends in its name. -/
theorem endsIn_of_stripStart {p q r : Path} (h : p.stripStart q = some r)
    (ne : q.components ≠ []) {s : String} (name : r.fileName = some s) : r.EndsIn s := by
  have key {cs : List Component} (h : (dropComponents p.body cs).map (fun body =>
      ofParts none (dropEndWhile isIdle (body.dropWhile isIdle))) = some r) : r.EndsIn s := by
    obtain ⟨left, hl, rfl⟩ := Option.map_eq_some_iff.mp h
    obtain ⟨suffix, -⟩ := of_dropComponents hl
    have parts := (ofParts_trimmed fun s hs => p.slash_not_mem_body s (suffix.subset hs)).2
    rw [← filterMap_dropWhile_idle, ← filterMap_dropEndWhile_idle] at parts
    rcases List.eq_nil_or_concat (dropEndWhile isIdle (left.dropWhile isIdle)) with e | ⟨init, last, e⟩
    · rw [e] at name
      cases name
    · rw [List.concat_eq_append] at e
      have busy := (of_dropEndWhile e).2
      rw [isIdle, Option.isNone_eq_false_iff] at busy
      obtain ⟨c, hc⟩ := Option.isSome_iff_exists.mp busy
      rw [e] at name parts ⊢
      rw [fileName, parts, List.filterMap_append, List.filterMap_cons_some hc, List.filterMap_nil,
        List.getLast?_concat] at name
      cases c with
      | name t =>
        cases name
        exact ofSegment_eq_name hc ▸ endsIn_ofParts init last
      | _ => cases name
  unfold stripStart at h
  split at h
  · rename_i nil
    exact absurd nil ne
  · split at h
    · exact key h
    · cases h
  · exact key h

end Path

/-! ## Modules -/

namespace Partition
variable {part : Partition}

/-- What belongs to a code file lies beside it, under its stem with one of the extensions. -/
theorem owns_file_iff {file path : Path} {f s : String} {front : List Component}
    (start : file.start = none) (named : file.fileName = some f)
    (e : path.components = front ++ [.name s]) : part.Owns (.file file) path ↔
      part.emitRoot.components ++ file.components.dropLast = front ∧
        ∃ x ∈ file.siblingExtensions, file.stem ++ x = s := by
  have related : (part.related file).map Path.components = _ := components_related start named
  have member : part.Owns (.file file) path ↔
      path.components ∈ (part.related file).map Path.components := by
    simp [Owns]
  rw [member, related, e]
  generalize part.emitRoot.components ++ file.components.dropLast = above
  simp only [List.mem_map]
  constructor
  · rintro ⟨x, hx, same⟩
    obtain ⟨here, last⟩ := List.append_inj' same (by simp)
    exact ⟨here, x, hx, by simpa using last⟩
  · rintro ⟨here, x, hx, last⟩
    exact ⟨x, hx, by rw [here, last]⟩

/-- The map beside a file is named like a file of a code file exactly if the file is, if it is no map
itself. -/
theorem siblings_map_iff {file : Path} {f s : String} (named : file.fileName = some f)
    (code : Kind.ofPath file = .code) (ne : s ≠ "") (text : ∀ t, t ≠ "" → s ≠ t ++ ".map") :
    (∃ x ∈ file.siblingExtensions, file.stem ++ x = s ++ ".map") ↔
      ∃ x ∈ file.siblingExtensions, file.stem ++ x = s := by
  have stem : ∀ x, file.stem ++ x ≠ "" := fun x e =>
    Path.stem_ne_empty named (String.append_eq_empty_iff.mp e).1
  have declaration : (".d.ts.map" : String) = ".d.ts" ++ ".map" := rfl
  simp only [Path.siblingExtensions, List.mem_cons, List.not_mem_nil, or_false, exists_eq_or_imp,
    exists_eq_left, declaration, ← String.append_assoc, String.append_left_inj]
  constructor
  · rintro (whole | here | ends | here)
    · -- a code file would be a map
      rw [Path.stem_append_extension named] at whole
      rw [Path.kind_of_map_name ne (whole ▸ named)] at code
      cases code
    · exact .inl here
    · have last := congrArg (fun t : String => t.toList.getLast?) ends
      simp at last
    · exact .inr (.inr (.inl here))
  · rintro (here | map | here | map)
    · exact .inr (.inl here)
    · exact absurd map.symm (text _ (stem _))
    · exact .inr (.inr (.inr here))
    · exact absurd map.symm (text _ (stem _))

/-- The map beside a file belongs to a module exactly if the file does, if neither is the module's
directory itself. -/
theorem owns_map_iff {module : EmittedModule} {path map : Path} {front : List Component} {s : String}
    (named : module.Named) (code : ∀ file, module = .file file → Kind.ofPath file = .code)
    (aside : ∀ dir entry, module = .directory dir entry → ∀ q ∈ [path, map],
      part.emitRoot.components ++ dir.components ≠ q.components)
    (owns : (Kind.ofPath path).ownsMap = true) (e : path.components = front ++ [.name s])
    (e' : map.components = front ++ [.name (s ++ ".map")]) :
    part.Owns module map ↔ part.Owns module path := by
  cases module with
  | directory dir entry =>
    have apart := aside dir entry rfl
    simp only [List.forall_mem_cons, e, e'] at apart
    simp only [Owns, e, e', List.prefix_concat_iff, apart.1, apart.2.1, false_or]
  | file file =>
    obtain ⟨f, own⟩ := Path.exists_fileName_of_kind (p := file) (by rw [code file rfl]; decide)
    have start : file.start = none := named.start
    have name : path.fileName = some s := by simp [Path.fileName, e]
    rw [owns_file_iff start own e, owns_file_iff start own e',
      siblings_map_iff own (code file rfl) (Path.of_fileName name).1.1]
    intro t ne map
    rw [Path.kind_of_map_name ne (map ▸ name)] at owns
    cases owns

end Partition

/-! ## Destinations -/

namespace Planner
variable {p : Planner} {package : Package} {a m : Artifact}

theorem endsIn_finalPath (member : p.Member package a) {s : String}
    (name : (p.within package a).fileName = some s) : (p.finalPath package a).EndsIn s := by
  have start := (exists_names_within member).1
  rw [finalPath_eq]
  refine Path.EndsIn.join ?_ _ (Path.isAbsolute_eq_false start)
  unfold within at name ⊢
  split at name
  · cases own : a.path.fileName with
    | none =>
      rw [own] at name
      cases name
    | some t =>
      rw [own, Option.getD_none, Option.getD_some, Path.fileName,
        Path.components_name (Path.of_fileName own).1] at name
      cases name
      exact ⟨"", .inl rfl, by simp⟩
  · rename_i dir entry source
    obtain ⟨below, c, hc, -⟩ := member.inside dir entry source
    rw [← Path.stripStart_isSome] at below
    obtain ⟨inside, strip⟩ := Option.isSome_iff_exists.mp below
    rw [strip, Option.getD_some] at name ⊢
    exact Path.endsIn_of_stripStart strip (List.ne_nil_of_mem hc) name

section
variable {front : List Component} {s : String} (named : package.source.Named)
  (ha : p.Member package a) (hm : p.Member package m) (e : a.path.components = front ++ [.name s])
  (e' : m.path.components = front ++ [.name (s ++ ".map")])
include named ha hm e e'

/-- In its package the map beside a file lies beside the file. -/
theorem components_within_map : ∃ above, (p.within package a).components = above ++ [.name s] ∧
    (p.within package m).components = above ++ [.name (s ++ ".map")] := by
  have final := components_finalPath ha
  have final' := components_finalPath hm
  have placed := placed_of_member named ha
  have placed' := placed_of_member named hm
  unfold Placed at placed placed'
  split at placed
  · rename_i dir entry source
    rw [source] at placed'
    obtain ⟨inside, whole, goes⟩ := placed
    obtain ⟨inside', whole', goes'⟩ := placed'
    rw [final] at goes
    rw [final'] at goes'
    rw [List.append_cancel_left goes, List.append_cancel_left goes']
    -- the directory leads to two files of different names, so that it leads to what is above both
    have above : p.emitRoot.components ++ dir.components <+: front := by
      have leads : p.emitRoot.components ++ dir.components <+: front ++ [.name s] :=
        ⟨inside, by rw [← whole, e]⟩
      have leads' : p.emitRoot.components ++ dir.components <+: front ++ [.name (s ++ ".map")] :=
        ⟨inside', by rw [← whole', e']⟩
      rcases List.prefix_concat_iff.mp leads with here | above
      · rcases List.prefix_concat_iff.mp leads' with there | above
        · have same := here.symm.trans there
          have long := congrArg String.length (by simpa using same : s = s ++ ".map")
          simp at long
        · exact above
      · exact above
    obtain ⟨rest, rfl⟩ := above
    rw [e, List.append_assoc] at whole
    rw [e', List.append_assoc] at whole'
    exact ⟨rest, (List.append_cancel_left whole).symm, (List.append_cancel_left whole').symm⟩
  · rename_i file source
    rw [final] at placed
    rw [source] at placed'
    simp only [final'] at placed'
    have name : a.path.fileName = some s := by simp [Path.fileName, e]
    have name' : m.path.fileName = some (s ++ ".map") := by simp [Path.fileName, e']
    rw [name] at placed
    rw [name'] at placed'
    exact ⟨[], List.append_cancel_left placed, List.append_cancel_left placed'⟩

/-- The map beside a file goes beside the destination of the file. -/
theorem components_finalPath_map :
    (p.finalPath package m).components = (p.finalPath package a).mapPath.components := by
  obtain ⟨above, within, within'⟩ := components_within_map named ha hm e e'
  have ends : (p.finalPath package a).EndsIn s := endsIn_finalPath ha (by simp [Path.fileName, within])
  have final := components_finalPath ha
  rw [within, ← List.append_assoc] at final
  rw [Path.components_mapPath_of_endsIn ends final, components_finalPath hm, within',
    List.append_assoc]

end

/-! ## Plans -/

section
variable {extension : String} {modules : List EmittedModule} {artifacts : List Artifact}
  {changes : ChangeSet} {paths : PathMap}

/-- The map beside a file is an artifact of the packages that the file is one of. -/
theorem mem_artifacts_map_iff (named : ∀ module ∈ modules, module.Named)
    (code : ∀ file, .file file ∈ modules → Kind.ofPath file = .code)
    (aside : ∀ dir entry, .directory dir entry ∈ modules → ∀ a ∈ artifacts,
      (a.path == p.emitRoot.join dir) = false)
    (ha : a ∈ artifacts) (hm : m ∈ artifacts) (owns : a.kind.ownsMap = true) {front : List Component}
    {s : String} (e : a.path.components = front ++ [.name s])
    (e' : m.path.components = front ++ [.name (s ++ ".map")])
    (hp : package ∈ Partition.packages ⟨p.emitRoot, extension⟩ modules artifacts) :
    a ∈ package.artifacts ↔ m ∈ package.artifacts := by
  have source := Partition.source_mem hp
  rw [Partition.mem_artifacts_iff named hp, Partition.mem_artifacts_iff named hp,
    Partition.owns_map_iff (named _ source) (fun file is => code file (is ▸ source)) ?_ owns e e',
    and_iff_right ha, and_iff_right hm]
  intro dir entry is q hq same
  have start : dir.start = none := (is ▸ named _ source : (EmittedModule.directory dir entry).Named).start
  have apart : ∀ b ∈ artifacts, b.path.components ≠ q.components := fun b hb at_root => by
    have no := aside dir entry (is ▸ source) b hb
    rw [Path.beq_iff.mpr (at_root.trans (same.symm.trans
      (Path.components_join_relative _ start).symm))] at no
    cases no
  rcases List.mem_pair.mp hq with rfl | rfl
  · exact apart a ha rfl
  · exact apart m hm rfl

theorem get?_destinations_eq_none
    (planned : p.plan (Partition.packages ⟨p.emitRoot, extension⟩ modules artifacts) = .ok changes)
    (destined : changes.destinations = .ok paths) (ha : a ∈ artifacts)
    (out : ∀ package ∈ Partition.packages ⟨p.emitRoot, extension⟩ modules artifacts,
      a ∉ package.artifacts) : paths.get? a.path = none := by
  refine Option.eq_none_iff_forall_ne_some.mpr fun target found => ?_
  obtain ⟨package, hp, c, hc, same, -⟩ := (get?_destinations planned destined).mp found
  exact out package hp (Partition.mem_artifacts_congr hp hc ha same)

end

/-- A position map goes along with its file: if a plan is made, the map beside a code file or a
declaration is a position map, it is an artifact of the packages that the file is one of, and it goes
beside the file's destination if that goes anywhere. -/
theorem maps_stay_beside {extension : String} {modules : List EmittedModule}
    {artifacts : List Artifact} {changes : ChangeSet} (emission : p.emitRoot.Settled)
    (named : ∀ module ∈ modules, module.Named)
    (code : ∀ file, .file file ∈ modules → Kind.ofPath file = .code)
    (tidy : ∀ a ∈ artifacts, a.path.Tidy)
    (aside : ∀ dir entry, .directory dir entry ∈ modules → ∀ a ∈ artifacts,
      (a.path == p.emitRoot.join dir) = false)
    (planned : p.plan (Partition.packages ⟨p.emitRoot, extension⟩ modules artifacts) = .ok changes) :
    ∃ paths, changes.destinations = .ok paths ∧
      ∀ a ∈ artifacts, a.kind.ownsMap = true →
      ∀ m ∈ artifacts, (m.path == a.path.mapPath) = true →
        m.isMap = true ∧
        (∀ package ∈ Partition.packages ⟨p.emitRoot, extension⟩ modules artifacts,
          a ∈ package.artifacts ↔ m ∈ package.artifacts) ∧
        (paths.get? m.path).map Path.components =
          (paths.get? a.path).map fun target => target.mapPath.components := by
  obtain ⟨paths, destined⟩ := destinations_of_plan planned
  refine ⟨paths, destined, fun a ha owns m hm beside => ?_⟩
  obtain ⟨s, name⟩ := Path.exists_fileName_of_kind (p := a.path) fun other => by
    rw [Artifact.kind, other] at owns
    cases owns
  obtain ⟨isName, front, e⟩ := Path.of_fileName name
  have e' := (Path.beq_iff.mp beside).trans (Path.components_mapPath (tidy a ha) e)
  have name' : m.path.fileName = some (s ++ ".map") := by simp [Path.fileName, e']
  have shared : ∀ package ∈ Partition.packages ⟨p.emitRoot, extension⟩ modules artifacts,
      a ∈ package.artifacts ↔ m ∈ package.artifacts := fun package hp =>
    mem_artifacts_map_iff named code aside ha hm owns e e' hp
  refine ⟨?_, shared, ?_⟩
  · rw [Artifact.isMap, Artifact.kind, Path.kind_of_map_name isName.1 name']
    rfl
  · by_cases packaged : ∃ package ∈ Partition.packages ⟨p.emitRoot, extension⟩ modules artifacts,
        a ∈ package.artifacts
    · obtain ⟨package, hp, hap⟩ := packaged
      have hmp := (shared package hp).mp hap
      have member := fun b (hb : b ∈ package.artifacts) =>
        member_of_settled emission (fun a ha => (tidy a ha).settled) hp hb
      rw [(get?_destinations planned destined).mpr ⟨package, hp, a, hap, rfl, rfl⟩,
        (get?_destinations planned destined).mpr ⟨package, hp, m, hmp, rfl, rfl⟩]
      exact congrArg some (components_finalPath_map (named _ (Partition.source_mem hp)) (member a hap)
        (member m hmp) e e')
    · rw [get?_destinations_eq_none planned destined ha fun package hp hap =>
          packaged ⟨package, hp, hap⟩,
        get?_destinations_eq_none planned destined hm fun package hp hmp =>
          packaged ⟨package, hp, (shared package hp).mpr hmp⟩]
      rfl

/-- A code file and its map, both below the root of one package in the end. -/
theorem maps_stay_beside_file :
    let p : Planner := ⟨⟨"/d"⟩, ⟨"/p"⟩, "package.json"⟩
    let modules : List EmittedModule := [.directory ⟨"lib"⟩ none, .file ⟨"a.js"⟩]
    let a : Artifact := ⟨⟨"/d/a.js"⟩, "", [], true⟩
    let m : Artifact := ⟨⟨"/d/a.js.map"⟩,
      "\x7b\"version\":3,\"sources\":[\"../a.ts\"],\"names\":[],\"mappings\":\"\"\x7d", [], false⟩
    p.emitRoot.Settled ∧ (∀ module ∈ modules, module.Named) ∧ (∀ b ∈ [a, m], b.path.Tidy) ∧
    ∃ changes paths, p.plan (Partition.packages ⟨⟨"/d"⟩, ".js"⟩ modules [a, m]) = .ok changes ∧
      changes.destinations = .ok paths ∧ m.isMap = true ∧
      (paths.get? a.path).map Path.components = some [.root, .name "p", .name "a", .name "a.js"] ∧
      (paths.get? m.path).map Path.components =
        some [.root, .name "p", .name "a", .name "a.js.map"] ∧
      (paths.get? m.path).map Path.components =
        (paths.get? a.path).map fun target => target.mapPath.components := by
  intro p modules a m
  have planned := Except.eq_ok_of_isSome
    (x := p.plan (Partition.packages ⟨⟨"/d"⟩, ".js"⟩ modules [a, m])) (by
      unfold plan finalPaths
      rw [PathMap.ofPairs_of_ordered (by decide +kernel) (by decide +kernel)]
      decide +kernel) ⟨[]⟩
  have emission : p.emitRoot.Settled := by decide +kernel
  have named : ∀ module ∈ modules, module.Named := by decide +kernel
  have code : ∀ file, .file file ∈ modules → Kind.ofPath file = .code := by
    intro file hf
    have same : file = ⟨"a.js"⟩ := by simpa [modules] using hf
    rw [same]
    decide +kernel
  have tidy : ∀ b ∈ [a, m], b.path.Tidy := by decide +kernel
  have aside : ∀ dir entry, .directory dir entry ∈ modules → ∀ b ∈ [a, m],
      (b.path == p.emitRoot.join dir) = false := by
    intro dir entry hd
    have same : dir = ⟨"lib"⟩ := by simp [modules] at hd; exact hd.1
    rw [same]
    decide +kernel
  obtain ⟨paths, destined, beside⟩ := maps_stay_beside emission named code tidy aside planned
  obtain ⟨map, -, goes⟩ := beside a (by simp) (by decide +kernel) m (by simp) (by decide +kernel)
  let package := Partition.ofFile ⟨⟨"/d"⟩, ".js"⟩ ⟨"a.js"⟩ [a, m]
  have packaged : a ∈ package.artifacts := List.mem_filter.mpr ⟨by simp, by decide +kernel⟩
  have there : paths.get? a.path = some (p.finalPath package a) :=
    (get?_destinations planned destined).mpr
      ⟨package, List.mem_cons_of_mem _ List.mem_cons_self, a, packaged, rfl, rfl⟩
  have place : (paths.get? a.path).map Path.components =
      some [.root, .name "p", .name "a", .name "a.js"] := by
    rw [there]
    decide +kernel
  have place' : (paths.get? m.path).map Path.components =
      some [.root, .name "p", .name "a", .name "a.js.map"] := by
    rw [goes, there]
    decide +kernel
  exact ⟨emission, named, tidy, _, paths, planned, destined, map, place, place', goes⟩

end Planner
end Apportion
