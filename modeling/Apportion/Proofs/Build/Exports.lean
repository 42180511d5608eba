import Apportion.Proofs.Build.Manifests
import Apportion.Proofs.Path.Arithmetic
import Mathlib.Data.List.Forall2
import Mathlib.Data.String.Basic

/-!
Export tables. Under keys of their own all exports are in a table, in the order of their keys
(`ExportTable.ofList_perm`, `ExportTable.pairwise_ofList`). The code files of a package have ways of their
own (`Planner.eq_of_within`), and a way can be told from its spelling (`Path.components_eq_of_specifier`),
so that no code file replaces another: each is exported, under the key of the package if it is what the
package is entered by, and else under its own way (`Planner.exports_lose_nothing`).
-/
namespace Apportion
open Apportion.Path

/-! ## Tables -/

namespace ExportTable
variable {entries : List (String × String)}

theorem insert_perm {key : String} (value : String) {table : ExportTable}
    (fresh : ∀ e ∈ table, e.1 ≠ key) : (table.insert key value).Perm ((key, value) :: table) := by
  induction table with
  | nil => exact .refl _
  | cons first rest ih =>
    have other := fresh first List.mem_cons_self
    unfold insert
    split
    · exact .refl _
    · rw [if_neg (Ne.symm other)]
      exact ((ih fun e he => fresh e (List.mem_cons_of_mem _ he)).cons _).trans (.swap ..)

theorem pairwise_insert (key value : String) {table : ExportTable}
    (sorted : table.Pairwise fun a b => a.1 < b.1) :
    (table.insert key value).Pairwise fun a b => a.1 < b.1 := by
  induction table with
  | nil => exact List.pairwise_singleton _ _
  | cons first rest ih =>
    obtain ⟨before, sorted'⟩ := List.pairwise_cons.mp sorted
    unfold insert
    split
    · rename_i less
      refine List.pairwise_cons.mpr ⟨fun e he => ?_, sorted⟩
      rcases List.mem_cons.mp he with rfl | he
      · exact less
      · exact lt_trans less (before e he)
    · rename_i notLess
      split
      · rename_i same
        exact List.pairwise_cons.mpr ⟨fun e he => same ▸ before e he, sorted'⟩
      · rename_i other
        refine List.pairwise_cons.mpr ⟨fun e he => ?_, ih sorted'⟩
        rcases mem_insert he with rfl | he
        · exact lt_of_le_of_ne (not_lt.mp notLess) (Ne.symm other)
        · exact before e he

/-- Entries under different keys are all in the table that is made of them. -/
theorem ofList_perm (distinct : entries.Pairwise fun a b => a.1 ≠ b.1) :
    (ofList entries).Perm entries := by
  have key : ∀ (entries : List (String × String)) (table : ExportTable),
      (∀ e ∈ entries, ∀ t ∈ table, t.1 ≠ e.1) → entries.Pairwise (fun a b => a.1 ≠ b.1) →
        (entries.foldl (fun table entry => table.insert entry.1 entry.2) table).Perm
          (entries ++ table) := by
    intro entries
    induction entries with
    | nil => exact fun table _ _ => .refl _
    | cons first rest ih =>
      intro table fresh distinct
      obtain ⟨apart, distinct⟩ := List.pairwise_cons.mp distinct
      have here := insert_perm first.2 (fresh first List.mem_cons_self)
      refine (ih _ (fun e he t ht => ?_) distinct).trans
        ((here.append_left rest).trans List.perm_middle)
      rcases List.mem_cons.mp (here.mem_iff.mp ht) with rfl | ht
      · exact apart e he
      · exact fresh e (List.mem_cons_of_mem _ he) t ht
  have whole := key entries [] (fun _ _ _ => nofun) distinct
  rwa [List.append_nil] at whole

/-- A table is in the order of its keys, each of which it has once. -/
theorem pairwise_ofList (entries : List (String × String)) :
    (ofList entries).Pairwise fun a b => a.1 < b.1 := by
  have key : ∀ (entries : List (String × String)) (table : ExportTable),
      table.Pairwise (fun a b => a.1 < b.1) →
        (entries.foldl (fun table entry => table.insert entry.1 entry.2) table).Pairwise
          fun a b => a.1 < b.1 := by
    intro entries
    induction entries with
    | nil => exact fun _ sorted => sorted
    | cons first rest ih => exact fun table sorted => ih _ (pairwise_insert _ _ sorted)
  exact key entries [] .nil

end ExportTable

/-! ## Ways and their spelling -/

namespace Path

/-- The specifier that leads down by names. -/
def specifierOf (names : List String) : String :=
  "./" ++ String.ofList (Text.join ['/'] (names.map String.toList))

theorem specifierOf_ne_dot (names : List String) : specifierOf names ≠ "." := by
  intro h
  have texts := congrArg String.toList h
  simp [specifierOf] at texts

theorem head?_split_of_isExplicit {s : String} (h : isExplicit s = true) :
    (Text.split '/' s.toList).head? = some ['.'] ∨
      (Text.split '/' s.toList).head? = some ['.', '.'] := by
  unfold isExplicit at h
  split at h
  · rename_i e
    exact .inl (by rw [e]; rfl)
  · rename_i e
    exact .inr (by rw [e]; rfl)
  · rename_i rest e
    exact .inl (by rw [e]; simp [Text.split])
  · rename_i rest e
    exact .inr (by rw [e]; simp [Text.split])
  · cases h

/-- A way down by names is spelled out, also if the first name begins with dots. -/
theorem specifier_of_names {q : Path} {names : List String} (e : q.components = names.map .name)
    (some : names ≠ []) : q.specifier = specifierOf names := by
  have isName : ∀ s ∈ names, IsName s := fun s hs =>
    isName_of_mem (p := q) (e ▸ List.mem_map_of_mem hs)
  have slashed : q.slashed = String.ofList (Text.join ['/'] (names.map String.toList)) := by
    rw [Path.slashed, e, List.map_map]
    rfl
  have pieces : Text.split '/' q.slashed.toList = names.map String.toList := by
    rw [slashed, String.toList_ofList]
    refine Text.split_join (by simpa using some) fun piece hp => ?_
    obtain ⟨s, hs, rfl⟩ := List.mem_map.mp hp
    exact (isName s hs).2.2.2
  have bare : ¬ isExplicit q.slashed = true := by
    intro explicit
    obtain ⟨first, rest, rfl⟩ := List.exists_cons_of_ne_nil some
    obtain ⟨-, dot, dots, -⟩ := isName first List.mem_cons_self
    rcases head?_split_of_isExplicit explicit with h | h
    · rw [pieces] at h
      exact dot (String.toList_inj.mp (Option.some.inj h))
    · rw [pieces] at h
      exact dots (String.toList_inj.mp (Option.some.inj h))
  rw [specifier, explicit, if_neg bare, slashed, specifierOf]

/-- A way can be told from its spelling. -/
theorem components_eq_of_specifier {q r : Path} (hq : q.start = none) (hr : r.start = none)
    (same : q.specifier = r.specifier) : q.components = r.components := by
  rw [← steps_specifier hq, same, steps_specifier hr]

/-- From a directory that is written at all a specifier leads where its way leads. -/
theorem components_join_specifier {dir q : Path} (some : dir.text ≠ "") (start : q.start = none) :
    (dir.join ⟨q.specifier⟩).components = (dir.join q).components := by
  rw [components_join (isAbsolute_of_isExplicit (isExplicit_specifier q)) (.inl some),
    components_join_relative dir start, steps_specifier start]

/-- From any directory it does so once dots are resolved. -/
theorem normalize_join_specifier (dir : Path) {q : Path} (start : q.start = none) :
    (dir.join ⟨q.specifier⟩).normalize = (dir.join q).normalize := by
  refine normalize_eq_of_components ?_
  rw [components_normalize_join dir (isAbsolute_of_isExplicit (isExplicit_specifier q)),
    components_normalize_join dir (isAbsolute_eq_false start), steps_specifier start,
    components_eq_steps start]

theorem fileName_withExtension {p : Path} {x : String} (name : IsName (p.stem ++ x)) :
    (p.withExtension x).fileName = some (p.stem ++ x) := by
  unfold withExtension withFileName
  split <;> simp [fileName, components_join_name _ name]

end Path

/-! ## Code files of packages -/

/-- A module is entered by the file at some names. The entry of a directory counts from the directory if
it lies there. -/
def EmittedModule.EnteredAt : EmittedModule → List String → Prop
  | .file path, names => ∃ s, path.fileName = some s ∧ names = [s]
  | .directory dir (some entry), names =>
    entry.components = dir.components ++ names.map .name ∨
      ¬ dir.components <+: entry.components ∧ entry.components = names.map .name
  | .directory _ none, _ => False

/-- What a manifest takes for its entry is where the module is entered. -/
theorem EmittedModule.any_main_iff (module : EmittedModule) {q : Path} {names : List String}
    (e : q.components = names.map .name) (some : names ≠ []) :
    module.main?.any (q == ·) = true ↔ module.EnteredAt names := by
  cases module with
  | file path =>
    rw [main?, Option.any_some, Path.beq_iff, EnteredAt, e]
    cases last : path.fileName with
    | none => simpa [Path.components_of_text_empty] using some
    | some s =>
      have single : (Path.mk s).components = [s].map .name := components_name (of_fileName last).1
      rw [Option.getD_some, single, List.map_inj_right fun s t e => Component.name_injective e]
      simp
  | directory dir entry =>
    cases entry with
    | none => exact iff_of_false (by simp [main?]) id
    | some entry =>
      rw [main?, Option.map_some, Option.any_some, Path.beq_iff, EnteredAt, e]
      by_cases below : dir.components <+: entry.components
      · obtain ⟨more, whole⟩ := below
        obtain ⟨rest, strip, same⟩ := exists_stripStart whole.symm
        rw [strip, Option.getD_some, same, ← whole]
        simp [eq_comm]
      · have outside : entry.stripStart dir = none := by
          rw [← Option.not_isSome_iff_eq_none, stripStart_isSome, startsWith_iff]
          exact below
        rw [outside, Option.getD_none]
        refine ⟨fun same => .inr ⟨below, same.symm⟩, fun h => ?_⟩
        rcases h with whole | ⟨-, same⟩
        · exact absurd ⟨_, whole.symm⟩ below
        · exact same.symm

namespace Planner
variable {p : Planner} {extension : String} {modules : List EmittedModule} {artifacts : List Artifact}
  {package : Package} {a b : Artifact}

/-- The names that lead to an artifact from where its module is: from the directory, or from beside the
code file. -/
def Inside (p : Planner) (a : Artifact) : EmittedModule → List String → Prop
  | .directory dir _, names =>
    a.path.components = p.emitRoot.components ++ dir.components ++ names.map .name
  | .file _, names => ∃ s, a.path.fileName = some s ∧ names = [s]

/-- Of the files that belong to a code file only one is code, whatever the code file's name. -/
theorem components_of_code_sibling {path : Path}
    (owns : Partition.Owns ⟨p.emitRoot, extension⟩ (.file path) a.path) (code : a.isCode = true) :
    a.path.components = ((p.emitRoot.join path).withExtension path.extension).components := by
  obtain ⟨sibling, mem, same⟩ := owns
  obtain ⟨x, hx, rfl⟩ := List.mem_map.mp mem
  change ((p.emitRoot.join path).withExtension x).components = a.path.components at same
  by_cases own : x = path.extension
  · rw [← same, own]
  · obtain ⟨slash, long⟩ := long_of_sibling hx own
    have name := fileName_withExtension ((p.emitRoot.join path).isName_stem_append_of_long slash long)
    -- as the name of a code file it would end in an extension of code
    rw [fileName, same, ← fileName] at name
    exact absurd (eq_extension_of_code hx name (eq_of_beq code)) own

/-- What `row` exports is the code file `a`, which `above` and its own name `n` lead to from where the
module is. -/
structure Exported (p : Planner) (extension : String) (package : Package) (a : Artifact)
    (row : String × String) (above : List String) (n : String) : Prop where
  inside : p.Inside a package.source (above ++ [n])
  name : a.path.stem ++ a.path.extension = n
  entry : package.source.EnteredAt (above ++ [n]) → row.1 = "."
  key : ¬ package.source.EnteredAt (above ++ [n]) → row.1 = specifierOf (above ++ [n])
  value : row.2 = specifierOf (above ++ [a.path.stem ++ extension])
  /-- The key leads from the package's root to where the code file goes. If the root is the empty path,
  the two are the same but for a dot in front. -/
  leads : row.1 ≠ "." →
    ((p.packageRoot package).join ⟨row.1⟩).normalize = (p.finalPath package a).normalize ∧
    ((p.packageRoot package).text ≠ "" →
      ((p.packageRoot package).join ⟨row.1⟩ == p.finalPath package a) = true)

section
variable (settled : ∀ a ∈ artifacts, a.path.Settled)
  (bounded : ∀ dir entry, .directory dir entry ∈ modules → (p.emitRoot.join dir).components ≠ [] ∧
    ∀ a ∈ artifacts, (a.path == p.emitRoot.join dir) = false)
  (hp : package ∈ Partition.packages ⟨p.emitRoot, extension⟩ modules artifacts)
include settled bounded hp

theorem member_of_bounded (ha : a ∈ package.artifacts) : p.Member package a := by
  have here := settled a (Partition.mem_of_mem_artifacts hp ha)
  refine ⟨here.normalForm, fun dir entry source => ?_⟩
  have below := Partition.startsWith_of_mem hp source ha
  refine ⟨below, .root, ?_, by simp⟩
  obtain ⟨some, -⟩ := bounded dir entry (source ▸ Partition.source_mem hp)
  obtain ⟨more, e⟩ := isAbsolute_iff.mp here.absolute
  obtain ⟨first, rest, whole⟩ := List.exists_cons_of_ne_nil some
  rw [startsWith_iff, e, whole, List.cons_prefix_cons] at below
  rw [whole, below.1]
  exact List.mem_cons_self

variable (named : ∀ module ∈ modules, module.Named)
include named

/-- A code file has a name, and is found in its package by names that end in it. -/
theorem exists_inside_of_code (ha : a ∈ package.artifacts) (code : a.isCode = true) :
    ∃ above n, a.path.fileName = some n ∧ p.Inside a package.source (above ++ [n]) ∧
      (p.within package a).components = (above ++ [n]).map .name := by
  have member := member_of_bounded settled bounded hp ha
  have final := components_finalPath member
  have placed := placed_of_member (named _ (Partition.source_mem hp)) member
  obtain ⟨n, last⟩ := exists_fileName_of_kind (p := a.path) fun other => by
    rw [Artifact.isCode, Artifact.kind, other] at code
    cases code
  obtain ⟨-, names, within⟩ := exists_names_within member
  unfold Placed at placed
  split at placed
  · rename_i dir entry source
    obtain ⟨inside, whole, goes⟩ := placed
    obtain rfl : names.map .name = inside := by
      rw [← within]
      exact List.append_cancel_left (final.symm.trans goes)
    have mem := source ▸ Partition.source_mem hp
    have start : dir.start = none := (named _ mem).start
    obtain ⟨above, m, rfl⟩ := (List.eq_nil_or_concat names).resolve_left fun none => by
      have aside := (bounded dir entry mem).2 a (Partition.mem_of_mem_artifacts hp ha)
      have here : (a.path == p.emitRoot.join dir) = true := by
        rw [Path.beq_iff, components_join_relative _ start, whole, none]
        exact List.append_nil _
      exact Bool.noConfusion (here.symm.trans aside)
    rw [List.concat_eq_append] at whole within
    obtain rfl : m = n := by simpa [fileName, whole] using last
    exact ⟨above, m, last, source ▸ whole, within⟩
  · rename_i path source
    rw [last] at placed
    exact ⟨[], n, last, source ▸ ⟨n, last, rfl⟩, List.append_cancel_left (final.symm.trans placed)⟩

/-- Code files of one package that have the same way in it are the same. -/
theorem eq_of_within (ha : a ∈ package.artifacts) (hb : b ∈ package.artifacts) (code : a.isCode = true)
    (code' : b.isCode = true)
    (same : (p.within package a).components = (p.within package b).components) :
    a.path.components = b.path.components := by
  obtain ⟨above, n, -, inside, within⟩ := exists_inside_of_code settled bounded hp named ha code
  obtain ⟨above', n', -, inside', within'⟩ := exists_inside_of_code settled bounded hp named hb code'
  have owns := ((Partition.mem_artifacts_iff named hp).mp ha).2
  have owns' := ((Partition.mem_artifacts_iff named hp).mp hb).2
  cases source : package.source with
  | file path =>
    -- a file name alone does not tell where its file lies, but there is only one code file to tell
    rw [source] at owns owns'
    rw [components_of_code_sibling owns code, components_of_code_sibling owns' code']
  | directory dir entry =>
    rw [source] at inside inside'
    rw [show a.path.components = _ from inside, show b.path.components = _ from inside', ← within, same,
      within']

/-- Code files of one package with different paths are exported under different keys. -/
theorem key_ne (ha : a ∈ package.artifacts) (hb : b ∈ package.artifacts) (code : a.isCode = true)
    (code' : b.isCode = true) (apart : a.path.components ≠ b.path.components) :
    (Partition.exportOf ⟨p.emitRoot, extension⟩ package.source.main? (p.within package a)).1 ≠
      (Partition.exportOf ⟨p.emitRoot, extension⟩ package.source.main? (p.within package b)).1 := by
  obtain ⟨above, n, -, -, way⟩ := exists_inside_of_code settled bounded hp named ha code
  obtain ⟨above', n', -, -, way'⟩ := exists_inside_of_code settled bounded hp named hb code'
  have spelled := specifier_of_names way (by simp)
  have spelled' := specifier_of_names way' (by simp)
  intro same
  refine apart (eq_of_within settled bounded hp named ha hb code code' ?_)
  by_cases entry : package.source.main?.any (p.within package a == ·) = true
  · rw [Partition.exportOf_key_of_entry entry] at same
    by_cases entry' : package.source.main?.any (p.within package b == ·) = true
    · cases led : package.source.main? with
      | none =>
        rw [led] at entry
        cases entry
      | some main =>
        rw [led] at entry entry'
        exact (Path.beq_iff.mp entry).trans (Path.beq_iff.mp entry').symm
    · rw [Partition.exportOf_key_of_other entry', spelled'] at same
      exact absurd same.symm (specifierOf_ne_dot _)
  · rw [Partition.exportOf_key_of_other entry] at same
    by_cases entry' : package.source.main?.any (p.within package b == ·) = true
    · rw [Partition.exportOf_key_of_entry entry', spelled] at same
      exact absurd same (specifierOf_ne_dot _)
    · rw [Partition.exportOf_key_of_other entry'] at same
      exact components_eq_of_specifier (start_of_names way (by simp))
        (start_of_names way' (by simp)) same

/-- Every code file of a package is exported as it should be. -/
theorem exists_exported (dotted : IsExtension extension) (long : 1 < extension.toList.length)
    (ha : a ∈ package.artifacts) (code : a.isCode = true) :
    ∃ above n, p.Exported extension package a
      (Partition.exportOf ⟨p.emitRoot, extension⟩ package.source.main? (p.within package a)) above n := by
  obtain ⟨above, n, last, inside, way⟩ := exists_inside_of_code settled bounded hp named ha code
  have entered := package.source.any_main_iff way (by simp)
  have plain : IsName (a.path.stem ++ extension) := by
    have pos := List.length_pos_iff.mpr (mt String.toList_eq_nil_iff.mp (stem_ne_empty last))
    refine isName_of_long ?_ ?_
    · rw [String.toList_append, List.mem_append]
      exact fun mem => mem.elim a.path.slash_not_mem_stem dotted.2
    · rw [String.toList_append, List.length_append]
      omega
  have value : ((p.within package a).withExtension extension).components =
      (above ++ [a.path.stem ++ extension]).map .name := by
    rw [List.map_append] at way ⊢
    exact components_withExtension_append way last plain
  have start := start_of_names way (by simp)
  refine ⟨above, n, inside, stem_append_extension last,
    fun here => Partition.exportOf_key_of_entry (entered.mpr here), fun other => ?_, ?_, fun other => ?_⟩
  · rw [Partition.exportOf_key_of_other (mt entered.mp other)]
    exact specifier_of_names way (by simp)
  · rw [Partition.exportOf_value]
    exact specifier_of_names value (by simp)
  · rw [Partition.exportOf_key_of_other fun entry => other (Partition.exportOf_key_of_entry entry),
      finalPath_eq]
    exact ⟨normalize_join_specifier _ start,
      fun some => Path.beq_iff.mpr (components_join_specifier some start)⟩

end

/-- Export tables lose nothing: a manifest has an entry point exactly if its module is a file or has an
entry, and its table has, in the order of keys of their own, one export for each code file of the package
and no other. No directory's boundary is an artifact, or the empty path, which none is below an absolute
emission root. -/
theorem exports_lose_nothing (settled : ∀ a ∈ artifacts, a.path.Settled)
    (distinct : artifacts.Pairwise fun a b => (a.path == b.path) = false)
    (named : ∀ module ∈ modules, module.Named)
    (bounded : ∀ dir entry, .directory dir entry ∈ modules → (p.emitRoot.join dir).components ≠ [] ∧
      ∀ a ∈ artifacts, (a.path == p.emitRoot.join dir) = false)
    (dotted : IsExtension extension) (long : 1 < extension.toList.length)
    (hp : package ∈ Partition.packages ⟨p.emitRoot, extension⟩ modules artifacts) :
    (package.manifest.entryPoint.isSome = true ↔ (∃ path, package.source = .file path) ∨
      ∃ dir entry, package.source = .directory dir (some entry)) ∧
    (∀ a, a ∈ package.artifacts ↔
      a ∈ artifacts ∧ Partition.Owns ⟨p.emitRoot, extension⟩ package.source a.path) ∧
    package.manifest.exports.Pairwise (fun a b => a.1 < b.1) ∧
    ∃ rows, package.manifest.exports.Perm rows ∧
      List.Forall₂ (fun a row => ∃ above n, p.Exported extension package a row above n)
        (package.artifacts.filter (·.isCode)) rows := by
  refine ⟨?_, fun a => Partition.mem_artifacts_iff named hp, ?_,
    (package.artifacts.filter (·.isCode)).map fun a =>
      Partition.exportOf ⟨p.emitRoot, extension⟩ package.source.main? (p.within package a), ?_, ?_⟩
  · rw [entryPoint_eq hp]
    cases package.source with
    | file path => simp [EmittedModule.main?]
    | directory dir entry => cases entry <;> simp [EmittedModule.main?]
  · rw [exports_eq hp]
    exact ExportTable.pairwise_ofList _
  · rw [exports_eq hp]
    refine ExportTable.ofList_perm (List.pairwise_map.mpr ?_)
    have apart := distinct.sublist (Partition.artifacts_sublist hp)
    refine (apart.sublist List.filter_sublist).imp_of_mem fun ha hb apart => ?_
    obtain ⟨ha, code⟩ := List.mem_filter.mp ha
    obtain ⟨hb, code'⟩ := List.mem_filter.mp hb
    refine key_ne settled bounded hp named ha hb code code' fun same => ?_
    rw [Path.beq_iff.mpr same] at apart
    cases apart
  · refine List.forall₂_map_right_iff.mpr (List.forall₂_same.mpr fun a ha => ?_)
    obtain ⟨ha, code⟩ := List.mem_filter.mp ha
    exact exists_exported settled bounded hp named dotted long ha code

/-- A directory that is entered by its index, with names that begin with dots beside it. -/
theorem exports_lose_nothing_dots :
    let p : Planner := ⟨⟨"/d"⟩, ⟨"/p"⟩, "package.json"⟩
    let modules : List EmittedModule := [.directory ⟨"lib"⟩ (some ⟨"lib/index.js"⟩)]
    let artifacts : List Artifact := [⟨⟨"/d/lib/index.js"⟩, "", [], false⟩,
      ⟨⟨"/d/lib/.x/a.jsx"⟩, "", [], false⟩, ⟨⟨"/d/lib/..b.d.ts"⟩, "", [], false⟩,
      ⟨⟨"/d/lib/..b.js"⟩, "", [], false⟩, ⟨⟨"/d/c.js"⟩, "", [], false⟩]
    let part : Partition := ⟨⟨"/d"⟩, ".mjs"⟩
    let package := part.ofDirectory ⟨"lib"⟩ (some ⟨"lib/index.js"⟩) artifacts
    (∀ a ∈ artifacts, a.path.Settled) ∧
    artifacts.Pairwise (fun a b => (a.path == b.path) = false) ∧
    (∀ module ∈ modules, module.Named) ∧
    (∀ dir entry, .directory dir entry ∈ modules → (p.emitRoot.join dir).components ≠ [] ∧
      ∀ a ∈ artifacts, (a.path == p.emitRoot.join dir) = false) ∧
    IsExtension part.exportExtension ∧ 1 < part.exportExtension.toList.length ∧
    package ∈ part.packages modules artifacts ∧
    package.manifest.exports =
      [(".", "./index.mjs"), ("./..b.js", "./..b.mjs"), ("./.x/a.jsx", "./.x/a.mjs")] ∧
    ∃ rows, package.manifest.exports.Perm rows ∧
      List.Forall₂ (fun a row => ∃ above n, p.Exported ".mjs" package a row above n)
        (package.artifacts.filter (·.isCode)) rows := by
  intro p modules artifacts part package
  have settled : ∀ a ∈ artifacts, a.path.Settled := by decide +kernel
  have distinct : artifacts.Pairwise fun a b => (a.path == b.path) = false := by decide +kernel
  have named : ∀ module ∈ modules, module.Named := by decide +kernel
  have bounded : ∀ dir entry, .directory dir entry ∈ modules →
      (p.emitRoot.join dir).components ≠ [] ∧
        ∀ a ∈ artifacts, (a.path == p.emitRoot.join dir) = false := by
    intro dir entry hd
    have same : dir = ⟨"lib"⟩ := by simp [modules] at hd; exact hd.1
    rw [same]
    exact ⟨by decide +kernel, by decide +kernel⟩
  have dotted : IsExtension part.exportExtension := by decide
  have long : 1 < part.exportExtension.toList.length := by decide
  have hp : package ∈ part.packages modules artifacts := List.mem_singleton_self _
  obtain ⟨-, -, -, exported⟩ := exports_lose_nothing settled distinct named bounded dotted long hp
  exact ⟨settled, distinct, named, bounded, dotted, long, hp, by decide +kernel, exported⟩

end Planner
end Apportion
