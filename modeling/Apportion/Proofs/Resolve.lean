import Apportion.Proofs.Build.Alike
import Apportion.Proofs.Build.Prepare
import Apportion.Proofs.Path.Appended
import Mathlib.Data.List.Find

/-!
Resolving in a tree. Which file of the project a specifier leads to is a search among candidates
(`file?_resolve`). Of these, the ones below some directories come last, if there are any
(`exists_candidates`). So in trees that are alike outside of the directories a search finds the same, up
to what lies below them (`found_of_alike`).
-/
namespace Apportion
open Memory FileTree

namespace Resolver
variable {r : Resolver} {s : Memory}

/-! ## Searches -/

/-- The file that an explicit or absolute specifier leads to. -/
def found (r : Resolver) (tree : FileTree String) (directory : Path) (specifier : String) :
    Option Path :=
  (candidates r.extensions (directory.join ⟨specifier⟩).normalize).find? fun p => tree.isFile p.place

theorem resolveRelative_of_relative {directory : Path} {specifier : String}
    (relative : isRelative specifier = true) :
    (r.resolveRelative (m := StateM Memory) directory specifier s).1 =
      match r.found s.tree directory specifier with
      | some path => .project path
      | none => .unresolved := by
  simp only [resolveRelative, relative, Bool.not_true, Bool.false_eq_true, ↓reduceIte, run_bind,
    resolveFile, run_firstFile, found]
  cases (candidates r.extensions (directory.join ⟨specifier⟩).normalize).find? fun p =>
    s.tree.isFile p.place <;> rfl

/-- An explicit specifier that leads to a file is resolved to it. -/
theorem resolveRelative_of_file (r : Resolver) {directory : Path} {specifier : String}
    (explicit : Path.isExplicit specifier = true)
    (file : s.tree.isFile (directory.join ⟨specifier⟩).normalize.place = true) :
    (r.resolveRelative (m := StateM Memory) directory specifier s).1 =
      .project (directory.join ⟨specifier⟩).normalize := by
  have relative : isRelative specifier = true := by simp [isRelative, explicit]
  rw [resolveRelative_of_relative relative, found, candidates, List.cons_append,
    List.find?_cons, file]

theorem file?_resolve (directory : Path) (specifier : String) :
    (r.resolve (m := StateM Memory) directory specifier s).1.file? =
      if Path.isExternalUrl specifier || !isRelative specifier then none
      else r.found s.tree directory specifier := by
  unfold resolve resolveChain
  by_cases url : Path.isExternalUrl specifier = true
  · simp only [url, ↓reduceIte, Bool.true_or]
    rfl
  · rw [Bool.not_eq_true] at url
    simp only [url, Bool.false_eq_true, ↓reduceIte, Bool.false_or, resolveFirst.eq_2, resolveBy, run_bind]
    by_cases relative : isRelative specifier = true
    · rw [resolveRelative_of_relative relative]
      simp only [relative, Bool.not_true, Bool.false_eq_true, ↓reduceIte]
      cases r.found s.tree directory specifier with
      | some path => rfl
      | none => exact file?_resolveFirst directory specifier _
    · rw [Bool.not_eq_true] at relative
      simp only [relative, Bool.not_false, ↓reduceIte, resolveRelative, run_pure, Resolution.isResolved,
        Bool.false_eq_true]
      exact file?_resolveFirst directory specifier _

/-! ## Candidates -/

variable {roots : List Key} {extensions : List String}

/-- Of the files that a path can stand for, those below some directories come last. -/
theorem exists_candidates (proper : ∀ x ∈ extensions, Path.IsExtension x)
    (deep : ∀ root ∈ roots, root ≠ []) (q : Path) :
    ∃ outer inner, candidates extensions q.normalize = outer ++ inner ∧
      (∀ c ∈ outer, inside roots c.place = false) ∧ ∀ c ∈ inner, inside roots c.place = true := by
  have beside : ∀ x ∈ extensions,
      inside roots (Path.mk (q.normalize.text ++ x)).place = inside roots q.normalize.place := by
    intro x hx
    rw [Bool.eq_iff_iff, inside_iff, inside_iff]
    exact exists_congr fun root => and_congr_right fun hr =>
      Path.below_append_iff q (proper x hx) (deep root hr)
  have index : ∀ x ∈ extensions, (q.normalize.join ⟨"index" ++ x⟩).place =
      q.normalize.place ++ ["index" ++ x] := fun x hx =>
    Path.place_join_name _ ((proper x hx).isName_append (by decide))
  by_cases below : inside roots q.normalize.place = true
  · -- then all of them are below a directory
    refine ⟨[], candidates extensions q.normalize, rfl, by simp, fun c hc => ?_⟩
    simp only [candidates, List.mem_cons, List.mem_append, List.mem_map] at hc
    rcases hc with (rfl | ⟨x, hx, rfl⟩) | ⟨x, hx, rfl⟩
    · exact below
    · exact (beside x hx).trans below
    · obtain ⟨root, hr, leads, ne⟩ := inside_iff.mp below
      rw [index x hx, inside_iff]
      refine ⟨root, hr, leads.trans (List.prefix_append _ _), fun e => ?_⟩
      have shorter := leads.length_le
      rw [e, List.length_append, List.length_singleton] at shorter
      omega
  · rw [Bool.not_eq_true] at below
    have front : ∀ c ∈ q.normalize :: extensions.map (fun x => Path.mk (q.normalize.text ++ x)),
        inside roots c.place = false := by
      intro c hc
      rcases List.mem_cons.mp hc with rfl | hc
      · exact below
      · obtain ⟨x, hx, rfl⟩ := List.mem_map.mp hc
        exact (beside x hx).trans below
    by_cases here : q.normalize.place ∈ roots
    · refine ⟨_, _, rfl, front, fun c hc => ?_⟩
      obtain ⟨x, hx, rfl⟩ := List.mem_map.mp hc
      rw [index x hx, inside_iff]
      exact ⟨_, here, List.prefix_append _ _, by simp⟩
    · refine ⟨_, [], (List.append_nil _).symm, fun c hc => ?_, by simp⟩
      rcases List.mem_append.mp hc with hc | hc
      · exact front c hc
      · obtain ⟨x, hx, rfl⟩ := List.mem_map.mp hc
        rw [index x hx, Bool.eq_false_iff]
        intro within
        obtain ⟨root, hr, leads, ne⟩ := inside_iff.mp within
        have above := (List.prefix_concat_iff.mp leads).resolve_left ne
        by_cases same : root = q.normalize.place
        · exact here (same ▸ hr)
        · exact Bool.eq_false_iff.mp below (inside_iff.mpr ⟨root, hr, above, same⟩)

/-- A search finds the same in trees that are alike, or leads below the directories in both if
anywhere. -/
theorem found_of_alike (proper : ∀ x ∈ r.extensions, Path.IsExtension x)
    (deep : ∀ root ∈ roots, root ≠ []) {t u : FileTree String} (alike : Alike roots t u)
    (directory : Path) (specifier : String) :
    (r.found t directory specifier).filter (fun p => !inside roots p.place) =
      (r.found u directory specifier).filter fun p => !inside roots p.place := by
  obtain ⟨outer, inner, whole, out, within⟩ := exists_candidates proper deep (directory.join ⟨specifier⟩)
  have lost (tree : FileTree String) :
      (inner.find? fun p => tree.isFile p.place).filter (fun p => !inside roots p.place) = none := by
    rw [Option.filter_eq_none_iff]
    intro p hp
    simp [within p (List.mem_of_find?_eq_some hp)]
  have same : (outer.find? fun p => t.isFile p.place) = outer.find? fun p => u.isFile p.place :=
    List.find?_congr fun p hp => alike.isFile_eq (out p hp)
  rw [found, found, whole, List.find?_append, List.find?_append, same]
  cases outer.find? fun p => u.isFile p.place with
  | some p => rfl
  | none => rw [Option.none_or, Option.none_or, lost, lost]

end Resolver
end Apportion
