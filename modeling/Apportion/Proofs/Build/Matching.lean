import Apportion.Proofs.Build.Success

/-!
Trees that match. Two lists of entries can hold the same files and directories at every place
(`FileTree.Matches`). What a build does to a tree goes by its nodes, so that on a matching tree the
same can be done, and the trees that are left match again (`FileTree.Steered`): this holds of a task
(`Apply.steered_actAt`), of any number of them and of the ignore list (`Build.steered_listAt`).
-/
namespace Apportion
open Memory

namespace FileTree
section
variable {α : Type} {t u : FileTree α}

def Matches (t u : FileTree α) : Prop := ∀ k, t.get? k = u.get? k

theorem Matches.symm (h : t.Matches u) : u.Matches t := fun k => (h k).symm

theorem Matches.trans {v : FileTree α} (h : t.Matches u) (h' : u.Matches v) : t.Matches v := fun k =>
  (h k).trans (h' k)

theorem Matches.isFile (h : t.Matches u) (k : Key) : t.isFile k = u.isFile k := by
  rw [FileTree.isFile, FileTree.isFile, file?, file?, h k]

theorem Matches.isDirectory (h : t.Matches u) (k : Key) : t.isDirectory k = u.isDirectory k := by
  rw [FileTree.isDirectory, FileTree.isDirectory, h k]

theorem Matches.put (h : t.Matches u) (k : Key) (content : α) :
    (t.put k content).Matches (u.put k content) := fun l => by
  rw [get?_put, get?_put, h l]

/-- A node is told by whether it is a directory and by what it holds as a file. -/
theorem get?_eq_of_node {k : Key} (file : t.file? k = u.file? k)
    (directory : t.isDirectory k = u.isDirectory k) : t.get? k = u.get? k := by
  unfold FileTree.file? at file
  unfold FileTree.isDirectory at directory
  rcases ht : t.get? k with - | (- | c) <;> rcases hu : u.get? k with - | (- | c') <;>
    simp_all

end

/-- What is done to a tree goes by what the tree holds: if it can be done to one of two matching trees
it can be done to the other, and the trees that are left match. -/
def Steered {ε : Type} (f : FileTree String → Except ε (FileTree String)) : Prop :=
  ∀ t u t' : FileTree String, t.Matches u → f t = .ok t' → ∃ u', f u = .ok u' ∧ t'.Matches u'

namespace Steered
variable {ε : Type} {f g : FileTree String → Except ε (FileTree String)}

theorem ok : Steered (Except.ok (ε := ε)) := by
  rintro t u _ same ⟨⟩
  exact ⟨u, rfl, same⟩

theorem bind (hf : Steered f) (hg : Steered g) : Steered fun tree => f tree >>= g := by
  intro t u t' same h
  obtain ⟨between, first, second⟩ := Except.bind_eq_ok.mp h
  obtain ⟨between', first', same'⟩ := hf t u between same first
  obtain ⟨u', second', same''⟩ := hg between between' t' same' second
  exact ⟨u', Except.bind_eq_ok.mpr ⟨between', first', second'⟩, same''⟩

theorem mapError {ε' : Type} (hf : Steered f) (wrap : ε → ε') :
    Steered fun tree => (f tree).mapError wrap := by
  intro t u t' same h
  obtain ⟨u', done, same'⟩ := hf t u t' same (Except.mapError_eq_ok.mp h)
  exact ⟨u', Except.mapError_eq_ok.mpr done, same'⟩

theorem foldlM {β : Type} {step : FileTree String → β → Except ε (FileTree String)} {l : List β}
    (each : ∀ b ∈ l, Steered fun tree => step tree b) : Steered fun tree => l.foldlM step tree := by
  induction l with
  | nil => exact ok
  | cons b rest ih =>
    simp only [List.foldlM_cons]
    exact (each b List.mem_cons_self).bind (ih fun c hc => each c (List.mem_cons_of_mem b hc))

end Steered
end FileTree

open FileTree

/-! ## File operations -/

theorem Memory.steered_writeAt (path : Path) (text : String) :
    Steered fun tree => writeAt tree path text := by
  intro t u t' same h
  obtain ⟨rfl, vacant, free⟩ := writeAt_eq_ok h
  refine ⟨_, writeAt_of_free text ?_ fun k hk => ?_, same.put _ _⟩
  · rw [← same.isDirectory]
    exact vacant
  · rw [← same.isFile]
    exact free k hk

theorem Memory.readAt_congr {t u : FileTree String} {path : Path}
    (same : t.get? path.place = u.get? path.place) : readAt t path = readAt u path := by
  rw [readAt, readAt, same]

/-! ## Tasks -/

namespace Apply

theorem Supply.at_congr {t u : FileTree String} (same : t.Matches u) (s : Supply) :
    s.at t = s.at u := by
  cases s with
  | known text => rfl
  | stored source revise => rw [Supply.at, Supply.at, readAt_congr (same source.place)]

theorem steered_actAt (task : Task) : Steered task.actAt := by
  intro t u t' same h
  obtain ⟨text, supplied, written⟩ := Except.bind_eq_ok.mp h
  obtain ⟨u', done, same'⟩ := (steered_writeAt task.target text).mapError BuildError.fs t u t' same written
  refine ⟨u', Except.bind_eq_ok.mpr ⟨text, ?_, done⟩, same'⟩
  rw [← Supply.at_congr same]
  exact supplied

theorem steered_tasks (tasks : List Task) :
    Steered fun tree => tasks.foldlM (fun tree t => t.actAt tree) tree :=
  .foldlM fun t _ => steered_actAt t

end Apply

/-! ## The ignore list -/

theorem IgnoreList.templateAt_congr {t u : FileTree String} {path : Path}
    (same : t.get? path.place = u.get? path.place) : templateAt t path = templateAt u path := by
  rw [templateAt, templateAt, same, readAt_congr same]

theorem Build.steered_listAt (o : BuildOptions) (names : List String) : Steered (listAt o names) := by
  unfold listAt
  cases o.ignore with
  | none => exact .ok
  | some location =>
    refine Steered.mapError (fun t u t' same h => ?_) BuildError.fs
    obtain ⟨template, found, written⟩ := Except.bind_eq_ok.mp h
    obtain ⟨u', done, same'⟩ := steered_writeAt _ _ t u t' same written
    refine ⟨u', Except.bind_eq_ok.mpr ⟨template, ?_, done⟩, same'⟩
    rw [← IgnoreList.templateAt_congr (same _)]
    exact found

end Apportion
