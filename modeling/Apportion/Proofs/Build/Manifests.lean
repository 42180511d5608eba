import Apportion.Proofs.Build.Resolution
import Apportion.Proofs.Plan.Discovered

/-!
Where manifests lead. The entry point of a manifest is told by the module alone, and the exports by the
code files of the package (`Planner.exports_eq`), each under the extension for exports. Read from the
package's root, either leads to a packaged file exactly if the report lists the file that would go there
(`manifests_lead_iff`); so an entry point that is found in the tree but not listed leads nowhere, and so
does the export of a code file with another extension (`manifest_leads_nowhere`).
-/
namespace Apportion
open Apportion.Path Memory

/-! ## Tables of exports -/

namespace ExportTable

theorem mem_insert {key value : String} {table : ExportTable} {e : String × String}
    (h : e ∈ table.insert key value) : e = (key, value) ∨ e ∈ table := by
  induction table with
  | nil => exact .inl (List.mem_singleton.mp h)
  | cons first rest ih =>
    obtain ⟨k, v⟩ := first
    unfold insert at h
    split at h
    · exact List.mem_cons.mp h
    · split at h
      · exact (List.mem_cons.mp h).imp_right (List.mem_cons_of_mem _)
      · rcases List.mem_cons.mp h with rfl | h
        · exact .inr List.mem_cons_self
        · exact (ih h).imp_right (List.mem_cons_of_mem _)

theorem mem_ofList {entries : List (String × String)} {e : String × String}
    (h : e ∈ ofList entries) : e ∈ entries := by
  have key : ∀ (entries : List (String × String)) (table : ExportTable),
      e ∈ entries.foldl (fun table entry => table.insert entry.1 entry.2) table →
        e ∈ table ∨ e ∈ entries := by
    intro entries
    induction entries with
    | nil => exact fun table h => .inl h
    | cons first rest ih =>
      intro table h
      rcases ih _ h with h | h
      · rcases mem_insert h with rfl | h
        · exact .inr List.mem_cons_self
        · exact .inl h
      · exact .inr (List.mem_cons_of_mem _ h)
  exact (key entries [] h).resolve_left List.not_mem_nil

end ExportTable

/-! ## Entry points -/

/-- The file that a module is entered by, relative to the emission root. -/
def EmittedModule.entry? : EmittedModule → Option Path
  | .file path => some path
  | .directory _ entry => entry

/-- The same as seen from where the module is. -/
def EmittedModule.main? : EmittedModule → Option Path
  | .file path => some ⟨path.fileName.getD ""⟩
  | .directory dir entry => entry.map fun e => (e.stripStart dir).getD e

/-- An entry point that is found lies right below its directory. -/
theorem Discovery.exists_name_of_entryIn {d : Discovery} {tree : FileTree String} {root entry : Path}
    {s : String} (proper : ∀ x ∈ d.codeExtensions, IsExtension x)
    (candidates : ∀ c ∈ d.entryCandidates, IsName c) (isName : IsName s)
    (h : d.entryIn tree root (root.join ⟨s⟩) = some entry) :
    ∃ t, entry.components = [.name s, .name t] := by
  obtain ⟨path, found, strip⟩ := Option.bind_eq_some_iff.mp h
  obtain ⟨base, hb, x, hx, rfl⟩ := exists_of_mem_entries isName (List.mem_of_find?_eq_some found)
  have named : IsName base := by
    rcases List.mem_append.mp hb with hb | hb
    · exact candidates base hb
    · exact List.mem_singleton.mp hb ▸ isName
  have whole := (components_of_stripStart strip).2
  rw [components_join_name _ ((proper x hx).isName_append named), components_join_name _ isName,
    List.append_assoc, List.append_cancel_left_eq] at whole
  exact ⟨_, whole.symm⟩

/-! ## Exports -/

namespace Partition
variable {part : Partition} {canonical : Option Path} {q : Path}

theorem exportOf_key_of_entry (h : canonical.any (q == ·) = true) :
    (part.exportOf canonical q).1 = "." := by
  rw [exportOf, if_pos h, canonicalKey]

theorem exportOf_key_of_other (h : ¬ canonical.any (q == ·) = true) :
    (part.exportOf canonical q).1 = q.specifier := by
  rw [exportOf, if_neg h]

theorem exportOf_value :
    (part.exportOf canonical q).2 = (q.withExtension part.exportExtension).specifier := by
  rw [exportOf]

end Partition

namespace Planner
variable {p : Planner} {extension : String} {modules : List EmittedModule} {artifacts : List Artifact}
  {package : Package} {a : Artifact} {after : FileTree String}

/-- The table of a package has an export for each of its code files, seen from where it goes. -/
theorem exports_eq (hp : package ∈ Partition.packages ⟨p.emitRoot, extension⟩ modules artifacts) :
    package.manifest.exports = ExportTable.ofList ((package.artifacts.filter (·.isCode)).map fun a =>
      Partition.exportOf ⟨p.emitRoot, extension⟩ package.source.main? (p.within package a)) := by
  obtain ⟨module, -, rfl⟩ := List.mem_map.mp hp
  have own {canonical : Option Path} {members : List Artifact} {way : Artifact → Path} :
      Partition.exports ⟨p.emitRoot, extension⟩ canonical (members.map fun a => (way a, a)) =
        ExportTable.ofList ((members.filter (·.isCode)).map fun a =>
          Partition.exportOf ⟨p.emitRoot, extension⟩ canonical (way a)) := by
    rw [Partition.exports, List.filter_map, List.map_map]
    rfl
  cases module with
  | file file => exact own
  | directory dir entry =>
    refine Eq.trans ?_ own
    refine congrArg (Partition.exports _ _) ?_
    rw [← List.filterMap_eq_map]
    refine List.filterMap_congr fun a ha => ?_
    have below := (List.mem_filter.mp ha).2
    rw [← Path.stripStart_isSome] at below
    obtain ⟨inside, strip⟩ := Option.isSome_iff_exists.mp below
    simp [within, Partition.ofDirectory, strip]

/-- What a package exports are its code files, each under the extension for exports. -/
theorem exists_code_of_export
    (hp : package ∈ Partition.packages ⟨p.emitRoot, extension⟩ modules artifacts)
    {entry : String × String} (he : entry ∈ package.manifest.exports) :
    ∃ a ∈ package.artifacts, a.isCode = true ∧
      entry.2 = ((p.within package a).withExtension extension).specifier := by
  rw [exports_eq hp] at he
  obtain ⟨a, mem, e⟩ := List.mem_map.mp (ExportTable.mem_ofList he)
  obtain ⟨mem, code⟩ := List.mem_filter.mp mem
  exact ⟨a, mem, code, by rw [← e, Partition.exportOf_value]⟩

/-! ## Specifiers -/

/-- A specifier leads from the root of a package to the packaged file of one of its artifacts. -/
def Delivers (p : Planner) (package : Package) (after : FileTree String) (specifier : String) : Prop :=
  ∃ a ∈ package.artifacts,
    (p.finalPath package a).place = ((p.packageRoot package).join ⟨specifier⟩).place ∧
    after.isFile (p.finalPath package a).place = true

section
variable (member : ∀ a ∈ package.artifacts, p.Member package a)
  (lands : ∀ a ∈ package.artifacts, p.Lands package a package.source)
  (there : ∀ a ∈ package.artifacts, after.isFile (p.finalPath package a).place = true)
include member lands there

/-- Names lead to a packaged file if the artifact that they lead to from where the module is belongs to
the package. -/
theorem delivers_iff {q : Path} {names : List String} (e : q.components = names.map .name)
    (some : names ≠ []) : p.Delivers package after q.specifier ↔
      ∃ a ∈ package.artifacts, a.path.components = p.base package.source ++ q.components := by
  refine exists_congr fun a => and_congr_right fun ha => ?_
  obtain ⟨inside, -, whole, goes⟩ := (lands a ha).exists_inside
  rw [components_finalPath (member a ha), List.append_cancel_left_eq] at goes
  rw [and_iff_left (there a ha), place_join_names _ e some, place_finalPath (member a ha),
    List.append_cancel_left_eq, whole, List.append_cancel_left_eq, ← goes,
    components_within (member a ha), e]
  exact (List.map_inj_right fun s t same => Component.name_injective same).symm

/-- An export leads where its code file goes, but for the extension. -/
theorem delivers_export_iff (ha : a ∈ package.artifacts) {n : String} (last : a.path.fileName = some n)
    {x : String} (plain : IsName (a.path.stem ++ x)) :
    ((p.packageRoot package).join ⟨((p.within package a).withExtension x).specifier⟩).place =
        ((p.finalPath package a).withExtension x).place ∧
    (p.Delivers package after ((p.within package a).withExtension x).specifier ↔
      ∃ b ∈ package.artifacts, b.path.components = (a.path.withExtension x).components) := by
  obtain ⟨inside, down, whole, goes⟩ := (lands a ha).exists_inside
  have within := goes
  rw [components_finalPath (member a ha), List.append_cancel_left_eq] at within
  obtain ⟨above, c, rfl⟩ := (List.eq_nil_or_concat inside).resolve_left down
  simp only [List.concat_eq_append, ← List.append_assoc] at whole goes within
  obtain ⟨-, front, e⟩ := of_fileName last
  obtain rfl := (List.cons.inj (List.append_inj' (whole.symm.trans e) rfl).2).1
  -- the file keeps its name, and so has the same name with the extension
  have exported := components_withExtension_append within last plain
  have beside := components_withExtension_append whole last plain
  have final := components_withExtension_append goes last plain
  have names : above = (p.within package a).place.dropLast.map .name := by
    rw [List.map_dropLast, ← components_within (member a ha), within, List.dropLast_concat]
  have spelled : ((p.within package a).withExtension x).components =
      ((p.within package a).place.dropLast ++ [a.path.stem ++ x]).map .name := by
    rw [exported, List.map_append, ← names]
    rfl
  have some : (p.within package a).place.dropLast ++ [a.path.stem ++ x] ≠ [] := by simp
  constructor
  · rw [place_join_names _ spelled some]
    refine (place_append_names ?_).symm
    rw [final, ← spelled, exported, List.append_assoc]
  · rw [delivers_iff member lands there spelled some, beside, exported, List.append_assoc]

end

/-! ## Entry points of packages -/

theorem entryPoint_eq (hp : package ∈ Partition.packages ⟨p.emitRoot, extension⟩ modules artifacts) :
    package.manifest.entryPoint = package.source.main?.map Partition.entryPoint := by
  obtain ⟨module, -, rfl⟩ := List.mem_map.mp hp
  cases module <;> rfl

/-- From where a module is, its entry point is found by a single name. -/
theorem exists_name_of_main {d : Discovery} {tree : FileTree String} {module : EmittedModule}
    (stands : d.Stands tree p.emitRoot module) (proper : ∀ x ∈ d.codeExtensions, IsExtension x)
    (candidates : ∀ c ∈ d.entryCandidates, IsName c) {entry main : Path}
    (entered : module.entry? = some entry) (led : module.main? = some main) :
    (∃ t, main.components = [.name t]) ∧
      (p.emitRoot.join entry).components = p.base module ++ main.components := by
  cases stands with
  | @file s _ single =>
    cases entered
    have last : entry.fileName = some s := by simp [fileName, single]
    rw [EmittedModule.main?, last] at led
    cases led
    have name := components_name (of_fileName last).1
    refine ⟨⟨s, name⟩, ?_⟩
    rw [components_join_relative _ (start_of_components_name single), single, base]
    exact congrArg _ name.symm
  | @directory s dir single =>
    have last : dir.fileName = some s := by simp [fileName, single]
    obtain ⟨t, whole⟩ := Discovery.exists_name_of_entryIn proper candidates (of_fileName last).1 entered
    have parts : entry.components = dir.components ++ [.name t] := by
      rw [whole, single]
      rfl
    obtain ⟨rest, strip, name⟩ := exists_stripStart parts
    have same : rest = main := by
      rw [EmittedModule.main?, show d.entryIn tree p.emitRoot _ = some entry from entered,
        Option.map_some, strip] at led
      exact Option.some.inj led
    rw [same] at name
    refine ⟨⟨t, name⟩, ?_⟩
    rw [components_join_relative _ (start_of_components_name whole), whole, base, single, name,
      List.append_assoc]
    rfl

/-- What lies where a module is entered belongs to the module. -/
theorem owns_of_main {module : EmittedModule} (shallow : module.Shallow) {main path : Path}
    (led : module.main? = some main) (e : path.components = p.base module ++ main.components) :
    Partition.Owns ⟨p.emitRoot, extension⟩ module path := by
  obtain ⟨s, single⟩ := shallow
  cases module with
  | file file =>
    have start : file.start = none := start_of_components_name single
    have last : file.fileName = some s := by rw [fileName, show file.components = _ from single]; rfl
    rw [EmittedModule.main?, last] at led
    cases led
    rw [Option.getD_some, components_name (of_fileName last).1] at e
    refine (Partition.owns_file_iff start last e).mpr ⟨?_, file.extension, ?_, stem_append_extension last⟩
    · rw [show file.components = _ from single]
      exact List.append_nil _
    · exact List.mem_cons_self
  | directory dir entry => exact ⟨main.components, e.symm⟩

/-- An entry point leads to a packaged file exactly if what the module is entered by is listed. -/
theorem delivers_main_iff {d : Discovery} {tree : FileTree String}
    (stands : ∀ module ∈ modules, d.Stands tree p.emitRoot module)
    (proper : ∀ x ∈ d.codeExtensions, IsExtension x) (candidates : ∀ c ∈ d.entryCandidates, IsName c)
    (hp : package ∈ Partition.packages ⟨p.emitRoot, extension⟩ modules artifacts)
    (member : ∀ a ∈ package.artifacts, p.Member package a)
    (lands : ∀ a ∈ package.artifacts, p.Lands package a package.source)
    (there : ∀ a ∈ package.artifacts, after.isFile (p.finalPath package a).place = true)
    {point : EntryPoint} {entry : Path} (told : package.manifest.entryPoint = some point)
    (entered : package.source.entry? = some entry) :
    p.Delivers package after point.main ↔ ∃ a ∈ artifacts, (a.path == p.emitRoot.join entry) = true := by
  have here := stands _ (Partition.source_mem hp)
  have named : ∀ module ∈ modules, module.Named := fun module hm => (stands module hm).shallow.named
  rw [entryPoint_eq hp] at told
  obtain ⟨main, led, rfl⟩ := Option.map_eq_some_iff.mp told
  obtain ⟨⟨t, single⟩, whole⟩ := exists_name_of_main here proper candidates entered led
  have leads := delivers_iff member lands there (show main.components = [t].map .name from single)
    (List.cons_ne_nil t [])
  rw [Partition.entryPoint, leads, ← whole]
  constructor
  · rintro ⟨a, ha, same⟩
    exact ⟨a, Partition.mem_of_mem_artifacts hp ha, beq_iff.mpr same⟩
  · rintro ⟨a, ha, same⟩
    rw [beq_iff] at same
    exact ⟨a, (Partition.mem_artifacts_iff named hp).mpr
      ⟨ha, owns_of_main here.shallow led (same.trans whole)⟩, same⟩

/-! ## Files that are listed -/

/-- Of the files of a code file, only the code file itself is code. -/
theorem eq_of_code_sibling {file path : Path} {n x : String} (named : file.fileName = some n)
    (hx : x ∈ file.siblingExtensions) (last : path.fileName = some (file.stem ++ x))
    (code : Kind.ofPath path = .code) : file.stem ++ x = n :=
  (Path.eq_extension_of_code hx last code).symm ▸ stem_append_extension named

section
variable {d : Discovery} {s : Memory} {changes : ChangeSet} {b : Artifact}
  (found : (d.discover (m := StateM Memory) p.emitRoot s).1 = .ok modules)
  (planned : p.plan (Partition.packages ⟨p.emitRoot, extension⟩ modules artifacts) = .ok changes)
  (hp : package ∈ Partition.packages ⟨p.emitRoot, extension⟩ modules artifacts)
include found planned hp

/-- In a tree that is planned for, no other code file has the stem of one that is packaged. -/
theorem name_eq_of_twin {file : Path} {n m : String} (source : package.source = .file file)
    (single : file.components = [.name n]) (isName : IsName m)
    (there : s.tree.isFile (p.emitRoot.place ++ [m]) = true) {x : String}
    (code : d.codeExtensions.contains x = true) (own : extensionOf m = x) (stem : file.stem ++ x = m) :
    n = m := by
  obtain ⟨twin, mem, single'⟩ := Discovery.exists_file_of_discover found isName there
    (own ▸ code)
  rw [← Partition.sources_packages ⟨p.emitRoot, extension⟩ modules artifacts] at mem
  obtain ⟨other, ho, source'⟩ := List.mem_map.mp mem
  have last : twin.fileName = some m := by simp [fileName, single']
  have stems : twin.stem = file.stem := stem_eq_of_append last own stem
  have same : other = package := by
    refine List.inj_on_of_nodup_map (f := Package.name)
      (List.pairwise_map.mpr (distinct_names planned)) ho hp ?_
    rw [Partition.name_eq ho, Partition.name_eq hp, source', source]
    exact stems
  rw [same, source, EmittedModule.file.injEq] at source'
  rw [source', single'] at single
  cases single
  rfl

/-- A code file of a package has its counterpart under an extension of code in the package, if that is
listed at all. -/
theorem exists_packaged_iff (form : s.tree.WellFormed)
    (files : ∀ a ∈ artifacts, s.tree.isFile a.path.place = true) (ha : a ∈ package.artifacts)
    (kind : a.isCode = true) {n : String} (last : a.path.fileName = some n) {x : String}
    (mapped : x ∈ mappedExtensions) (code : d.codeExtensions.contains x = true) :
    (∃ b ∈ package.artifacts, b.path.components = (a.path.withExtension x).components) ↔
      ∃ b ∈ artifacts, b.path.components = (a.path.withExtension x).components := by
  have stands := Discovery.stands_of_discover form found
  have named : ∀ module ∈ modules, module.Named := fun module hm => (stands module hm).shallow.named
  refine ⟨fun ⟨b, hb, same⟩ => ⟨b, Partition.mem_of_mem_artifacts hp hb, same⟩, ?_⟩
  rintro ⟨b, hb, same⟩
  refine ⟨b, ?_, same⟩
  have plain := isName_of_mapped a.path mapped
  have beside := components_withExtension last plain
  have lands := lands_of_stands stands files hp ha
  cases source : package.source with
  | directory dir entry =>
    rw [source] at lands
    obtain ⟨inside, some, whole, -⟩ := lands.exists_inside
    refine (Partition.mem_artifacts_iff named hp).mpr ⟨hb, ?_⟩
    rw [source, Partition.Owns, same, beside, whole, List.dropLast_append_of_ne_nil some, base]
    exact ⟨inside.dropLast ++ [.name (a.path.stem ++ x)], by simp⟩
  | file file =>
    rw [source] at lands
    cases lands with
    | @beside _ m y single sibling whole _ =>
      have first : file.fileName = some m := by simp [fileName, single]
      have last' : a.path.fileName = some (file.stem ++ y) := by simp [fileName, whole]
      have code' : Kind.ofPath a.path = .code := by simpa [Artifact.isCode, Artifact.kind] using kind
      have itself := eq_of_code_sibling first sibling last' code'
      rw [itself] at whole last'
      have stem : a.path.stem = file.stem := stem_congr (last'.trans first.symm)
      rw [beside, whole, List.dropLast_concat, stem] at same
      -- the file that is listed is found as a module of its own, which is this one
      have place : b.path.place = p.emitRoot.place ++ [file.stem ++ x] :=
        place_append_names (by rw [same]; rfl)
      have twin : m = file.stem ++ x := name_eq_of_twin found planned hp source single (stem ▸ plain)
        (place ▸ files b hb) code (extensionOf_append_mapped (stem_ne_empty first) mapped) rfl
      refine Partition.mem_artifacts_congr hp ha hb ?_
      rw [whole, same, twin]

end

/-! ## Manifests -/

/-- How far the manifest of a package leads to files that are there. -/
structure ManifestLeads (p : Planner) (extension : String) (artifacts : List Artifact)
    (after : FileTree String) (package : Package) : Prop where
  /-- There is an entry point if the module has one. -/
  entered : package.manifest.entryPoint.isSome = package.source.entry?.isSome
  /-- It leads to a packaged file exactly if what the module is entered by is listed. -/
  main : ∀ point entry, package.manifest.entryPoint = some point →
    package.source.entry? = some entry → (p.Delivers package after point.main ↔
      ∃ a ∈ artifacts, (a.path == p.emitRoot.join entry) = true)
  /-- An export leads to where a code file of the package goes, but with the extension for exports, and
  to a packaged file exactly if the code file with that extension is listed. -/
  exported : ∀ e ∈ package.manifest.exports, ∃ a ∈ package.artifacts, a.isCode = true ∧
    ((p.packageRoot package).join ⟨e.2⟩).place =
      ((p.finalPath package a).withExtension extension).place ∧
    (p.Delivers package after e.2 ↔
      ∃ b ∈ artifacts, (b.path == a.path.withExtension extension) = true) ∧
    (a.path.extension = extension → p.Delivers package after e.2)

/-- The manifests of a plan for a discovered tree lead where the report lets them. -/
theorem leads_of_plan {d : Discovery} {s : Memory} {changes : ChangeSet}
    (form : s.tree.WellFormed) (proper : ∀ x ∈ d.codeExtensions, IsExtension x)
    (candidates : ∀ c ∈ d.entryCandidates, IsName c) (mapped : extension ∈ mappedExtensions)
    (code : d.codeExtensions.contains extension = true)
    (found : (d.discover (m := StateM Memory) p.emitRoot s).1 = .ok modules)
    (files : ∀ a ∈ artifacts, s.tree.isFile a.path.place = true)
    (normal : ∀ a ∈ artifacts, NormalForm a.path.components)
    (planned : p.plan (Partition.packages ⟨p.emitRoot, extension⟩ modules artifacts) = .ok changes)
    (hp : package ∈ Partition.packages ⟨p.emitRoot, extension⟩ modules artifacts)
    (there : ∀ a ∈ package.artifacts, after.isFile (p.finalPath package a).place = true) :
    p.ManifestLeads extension artifacts after package := by
  have stands := Discovery.stands_of_discover form found
  have shallow : ∀ module ∈ modules, module.Shallow := fun module hm => (stands module hm).shallow
  have member : ∀ a ∈ package.artifacts, p.Member package a := fun a ha =>
    member_of_shallow shallow normal hp ha
  have lands : ∀ a ∈ package.artifacts, p.Lands package a package.source := fun a ha =>
    lands_of_stands stands files hp ha
  have entered : package.manifest.entryPoint.isSome = package.source.entry?.isSome := by
    rw [entryPoint_eq hp]
    cases package.source <;> simp [EmittedModule.main?, EmittedModule.entry?]
  refine ⟨entered, fun point entry told here =>
    delivers_main_iff stands proper candidates hp member lands there told here, fun e he => ?_⟩
  obtain ⟨a, ha, kind, led⟩ := exists_code_of_export hp he
  have isCode : Kind.ofPath a.path = .code := by simpa [Artifact.isCode, Artifact.kind] using kind
  obtain ⟨n, last⟩ := exists_fileName_of_kind (p := a.path) (by rw [isCode]; decide)
  obtain ⟨place, leads⟩ := delivers_export_iff member lands there ha last
    (isName_of_mapped a.path mapped)
  rw [← led] at place leads
  have listed := exists_packaged_iff found planned hp form files ha kind last mapped code
  refine ⟨a, ha, kind, place, ?_, fun here => leads.mpr ⟨a, ha, ?_⟩⟩
  · simp only [leads, listed, beq_iff]
  · rw [← here, components_withExtension_self last]

end Planner

/-! ## Builds -/

namespace Build
variable {e : Emitter} {d : Discovery} {o : BuildOptions} {s : Memory} {result : BuildResult}

/-- After a build that succeeds, its manifests lead where the report lets them. -/
theorem leads_of_run (form : s.tree.WellFormed) (wet : o.dryRun = false)
    (proper : ∀ x ∈ d.codeExtensions, IsExtension x) (candidates : ∀ c ∈ d.entryCandidates, IsName c)
    (mapped : o.exportExtension ∈ mappedExtensions)
    (code : d.codeExtensions.contains o.exportExtension = true)
    (ok : (run (m := StateM Memory) e d o s).1 = .ok result) :
    ∃ artifacts modules, (e.emit (m := StateM Memory) (.ofTree s.tree)).1 = .ok artifacts ∧
      (d.discover (m := StateM Memory) o.emitRoot (.ofTree s.tree)).1 = .ok modules ∧
      result.changes.manifests = (o.partition.packages modules artifacts).map (fun package =>
        ((o.planner.packageRoot package).join ⟨o.manifestName⟩, package.manifest.render)) ∧
      ∀ package ∈ o.partition.packages modules artifacts, o.planner.ManifestLeads o.exportExtension
        artifacts (run (m := StateM Memory) e d o s).2.tree package := by
  obtain ⟨artifacts, planned, paths, between, prepared, destined, worked, written, rfl⟩ :=
    run_eq_ok wet ok
  obtain ⟨modules, emitted, found, plan⟩ := prepare_eq_ok prepared
  obtain ⟨made, -⟩ := planned_eq_ok plan
  refine ⟨artifacts, modules, emitted, found, ?_, fun package hp => ?_⟩
  · rw [changes_listed]
    exact (Planner.plan_eq_ok made).2.2.1
  · have files : ∀ a ∈ artifacts, s.tree.isFile a.path.place = true := by
      intro a ha
      obtain ⟨-, -, -, -, -, -, -, there, -⟩ := Emitter.tells_of_emit emitted a ha
      rw [FileTree.isFile, there]
      rfl
    have stays := (file?_of_listAt written).1
    exact Planner.leads_of_plan (s := .ofTree s.tree) form proper candidates mapped code found files
      (Emitter.normal_of_emit emitted) made hp
      fun a ha => stays _ (Planner.isFile_of_packaged made destined worked hp ha)

/-- With the settings that hold where nothing else is said, a build that succeeds writes manifests which
lead to packaged files exactly as far as the report lists what they name: the entry point if it lists the
file that the module is entered by, an export if it lists the code file with the extension for exports. -/
theorem manifests_lead_iff (root : Path) (form : s.tree.WellFormed)
    (ok : (run (m := StateM Memory) (Settings.standard.emitter root) Settings.standard.discovery
      (Settings.standard.options root) s).1 = .ok result) :
    ∃ artifacts modules,
      ((Settings.standard.emitter root).emit (m := StateM Memory) (.ofTree s.tree)).1 = .ok artifacts ∧
      (Settings.standard.discovery.discover (m := StateM Memory) (Settings.standard.emitRoot root)
        (.ofTree s.tree)).1 = .ok modules ∧
      result.changes.manifests =
        ((Settings.standard.options root).partition.packages modules artifacts).map (fun package =>
          (((Settings.standard.options root).planner.packageRoot package).join ⟨"package.json"⟩,
            package.manifest.render)) ∧
      ∀ package ∈ (Settings.standard.options root).partition.packages modules artifacts,
        (Settings.standard.options root).planner.ManifestLeads ".js" artifacts
          (run (m := StateM Memory) (Settings.standard.emitter root) Settings.standard.discovery
            (Settings.standard.options root) s).2.tree package := by
  have mapped : ".js" ∈ mappedExtensions := by decide
  have code : Settings.standard.discovery.codeExtensions.contains ".js" = true := by decide
  exact leads_of_run (e := Settings.standard.emitter root) (d := Settings.standard.discovery)
    (o := Settings.standard.options root) form rfl (by decide) (by decide) mapped code ok

/-- The package of a listed code file has an entry point that leads to it. -/
theorem manifests_lead_looped : loopedTree.WellFormed ∧ ∃ result,
    (run (m := StateM Memory) (Settings.standard.emitter ⟨"/p"⟩) Settings.standard.discovery
      (Settings.standard.options ⟨"/p"⟩) (.ofTree loopedTree)).1 = .ok result ∧
    ∃ artifacts modules,
      ∃ package ∈ (Settings.standard.options ⟨"/p"⟩).partition.packages modules artifacts, ∃ point,
        package.manifest.entryPoint = some point ∧
        (Settings.standard.options ⟨"/p"⟩).planner.Delivers package
          (run (m := StateM Memory) (Settings.standard.emitter ⟨"/p"⟩) Settings.standard.discovery
            (Settings.standard.options ⟨"/p"⟩) (.ofTree loopedTree)).2.tree point.main := by
  have form : loopedTree.WellFormed :=
    FileTree.wellFormed_of_entries (by decide +kernel) (by decide +kernel)
  obtain ⟨result, ok⟩ : ∃ result, (run (m := StateM Memory) (Settings.standard.emitter ⟨"/p"⟩)
      Settings.standard.discovery (Settings.standard.options ⟨"/p"⟩) (.ofTree loopedTree)).1 =
        .ok result := ⟨_, Except.eq_ok_of_isSome (by decide +kernel) ⟨[], [], ⟨[]⟩, none, none⟩⟩
  have checked : ((Settings.standard.emitter ⟨"/p"⟩).emit (m := StateM Memory)
      (.ofTree loopedTree)).1.toOption.any (fun artifacts =>
      (Settings.standard.discovery.discover (m := StateM Memory) (Settings.standard.emitRoot ⟨"/p"⟩)
        (.ofTree loopedTree)).1.toOption.any fun modules =>
      ((Settings.standard.options ⟨"/p"⟩).partition.packages modules artifacts).any fun package =>
        package.manifest.entryPoint.isSome && package.source.entry?.any fun entry =>
          artifacts.any fun a => a.path == (Settings.standard.emitRoot ⟨"/p"⟩).join entry) = true := by
    decide +kernel
  simp only [Option.any_eq_true, List.any_eq_true, Bool.and_eq_true] at checked
  obtain ⟨artifacts, emitted, modules, found, package, hp, some, entry, entered, a, ha, here⟩ := checked
  replace emitted := Except.eq_ok_of_toOption emitted
  replace found := Except.eq_ok_of_toOption found
  obtain ⟨artifacts', modules', emitted', found', -, leads⟩ := manifests_lead_iff ⟨"/p"⟩ form ok
  obtain rfl : artifacts' = artifacts := Except.ok.inj (emitted'.symm.trans emitted)
  obtain rfl : modules' = modules := Except.ok.inj (found'.symm.trans found)
  obtain ⟨point, told⟩ := Option.isSome_iff_exists.mp some
  exact ⟨form, result, ok, artifacts', modules', package, hp, point, told,
    ((leads package hp).main point entry told entered).mpr ⟨a, ha, here⟩⟩

/-- A directory with an entry point that the report does not list, and with a listed code file that has
another extension than exports do. -/
def danglingTree : FileTree String :=
  ⟨[(["p"], .directory), (["p", "build"], .directory), (["p", "build", "esm"], .directory),
    (["p", "build", "esm", "lib"], .directory), (["p", "build", "esm", "lib", "a.mjs"], .file ""),
    (["p", "build", "esm", "lib", "index.js"], .file ""),
    (["p", "build", "emit-report.json"],
      .file "\x7b\"artifacts\":[\x7b\"path\":\"lib/a.mjs\"\x7d]\x7d")]⟩

/-- The manifest of a package can have an entry point and an export that lead to no file. -/
theorem manifest_leads_nowhere : danglingTree.WellFormed ∧ ∃ artifacts modules result,
    ((Settings.standard.emitter ⟨"/p"⟩).emit (m := StateM Memory) (.ofTree danglingTree)).1 =
      .ok artifacts ∧
    (Settings.standard.discovery.discover (m := StateM Memory) (Settings.standard.emitRoot ⟨"/p"⟩)
      (.ofTree danglingTree)).1 = .ok modules ∧
    (run (m := StateM Memory) (Settings.standard.emitter ⟨"/p"⟩) Settings.standard.discovery
      (Settings.standard.options ⟨"/p"⟩) (.ofTree danglingTree)).1 = .ok result ∧
    ∃ package ∈ (Settings.standard.options ⟨"/p"⟩).partition.packages modules artifacts,
      (∃ point, package.manifest.entryPoint = some point ∧
        (run (m := StateM Memory) (Settings.standard.emitter ⟨"/p"⟩) Settings.standard.discovery
          (Settings.standard.options ⟨"/p"⟩) (.ofTree danglingTree)).2.tree.isFile
            (((Settings.standard.options ⟨"/p"⟩).planner.packageRoot package).join
              ⟨point.main⟩).place = false) ∧
      ∃ e ∈ package.manifest.exports,
        (run (m := StateM Memory) (Settings.standard.emitter ⟨"/p"⟩) Settings.standard.discovery
          (Settings.standard.options ⟨"/p"⟩) (.ofTree danglingTree)).2.tree.isFile
            (((Settings.standard.options ⟨"/p"⟩).planner.packageRoot package).join
              ⟨e.2⟩).place = false := by
  obtain ⟨result, ok⟩ : ∃ result, (run (m := StateM Memory) (Settings.standard.emitter ⟨"/p"⟩)
      Settings.standard.discovery (Settings.standard.options ⟨"/p"⟩) (.ofTree danglingTree)).1 =
        .ok result := ⟨_, Except.eq_ok_of_isSome (by decide +kernel) ⟨[], [], ⟨[]⟩, none, none⟩⟩
  have checked : ((Settings.standard.emitter ⟨"/p"⟩).emit (m := StateM Memory)
      (.ofTree danglingTree)).1.toOption.any (fun artifacts =>
      (Settings.standard.discovery.discover (m := StateM Memory) (Settings.standard.emitRoot ⟨"/p"⟩)
        (.ofTree danglingTree)).1.toOption.any fun modules =>
      ((Settings.standard.options ⟨"/p"⟩).partition.packages modules artifacts).any fun package =>
        (package.manifest.entryPoint.any fun point => !(run (m := StateM Memory)
          (Settings.standard.emitter ⟨"/p"⟩) Settings.standard.discovery
          (Settings.standard.options ⟨"/p"⟩) (.ofTree danglingTree)).2.tree.isFile
            (((Settings.standard.options ⟨"/p"⟩).planner.packageRoot package).join
              ⟨point.main⟩).place) &&
        package.manifest.exports.any fun e => !(run (m := StateM Memory)
          (Settings.standard.emitter ⟨"/p"⟩) Settings.standard.discovery
          (Settings.standard.options ⟨"/p"⟩) (.ofTree danglingTree)).2.tree.isFile
            (((Settings.standard.options ⟨"/p"⟩).planner.packageRoot package).join ⟨e.2⟩).place) =
      true := by
    decide +kernel
  simp only [Option.any_eq_true, List.any_eq_true, Bool.and_eq_true, Bool.not_eq_true'] at checked
  obtain ⟨artifacts, emitted, modules, found, package, hp, main, exported⟩ := checked
  exact ⟨FileTree.wellFormed_of_entries (by decide +kernel) (by decide +kernel), artifacts, modules,
    result, Except.eq_ok_of_toOption emitted, Except.eq_ok_of_toOption found, ok, package, hp, main,
    exported⟩

end Build
end Apportion
