import Codemod.Proofs.Visits
import Mathlib.Data.List.Basic

/-!
# A batch place by place

A target may be listed several times, and what it comes to depends on where in
the list it stands. So the places are told apart: `reached` is how far a batch
has come before a place, which is what the batch of the targets before it comes
to, and `reached_visited` says that one visit leads from there to the next
place. What holds of a batch that did not fail is shown along the places
(`places_induction`).
-/

namespace Codemod.Batch

/-- The targets that pass a test, which is asked of each of them together with
its place. -/
def picked (test : Nat → String → Bool) (paths : List String) : List String :=
  (paths.zipIdx.filter fun x => test x.2 x.1).map Prod.fst

section

variable {test : Nat → String → Bool} {path : String} {paths : List String}

theorem picked_concat : picked test (paths ++ [path]) =
    picked test paths ++ if test paths.length path then [path] else [] := by
  rw [picked, List.zipIdx_append, List.filter_append,
    List.map_append, Nat.zero_add]
  cases htest : test paths.length path <;> simp [picked, htest]

theorem mem_picked : path ∈ picked test paths ↔
    ∃ k, paths[k]? = some path ∧ test k path = true := by
  simp [picked, List.mem_zipIdx_iff_getElem?]

end

/-- How far a batch has come before the place `k`. -/
def reached (rules : Rules) (mode : Mode)
    (tree : FileTree) (paths : List String) (k : Nat) :
    Progress :=
  (visitAll rules mode { tree } (paths.take k)).1

variable {rules : Rules} {mode : Mode} {p p' : Progress} {tree : FileTree}
  {path : String} {paths front back : List String} {done : Summary} {k : Nat}

theorem run_take_tree :
    (run rules mode tree (paths.take k)).tree =
      (reached rules mode tree paths k).tree :=
  run_tree _ _ _ _

theorem run_take_events :
    (run rules mode tree (paths.take k)).events =
      (reached rules mode tree paths k).events :=
  run_events _ _ _ _

/-- If a batch does not fail, its front does not, and the rest goes on from
there. -/
theorem visitAll_front
    (h : visitAll rules mode p (front ++ back) = (p', none)) :
    ∃ q, visitAll rules mode p front = (q, none) ∧
    visitAll rules mode q back = (p', none) := by
  induction front generalizing p with
  | nil => exact ⟨p, rfl, h⟩
  | cons path front ih =>
      obtain ⟨m, hvisited, hrest⟩ := visitAll_cons_inv h
      obtain ⟨q, hq, hback⟩ := ih hrest
      exact ⟨q, (visitAll_cons_of_done hvisited.visit_eq front).trans hq, hback⟩

theorem take_succ_of_getElem? (hk : paths[k]? = some path) :
    paths.take (k + 1) = paths.take k ++ [path] := by
  rw [List.take_add_one, hk]
  rfl

theorem visitAll_take (h : (run rules mode tree paths).result = .ok done)
    (k : Nat) :
    visitAll rules mode { tree } (paths.take k) =
      (reached rules mode tree paths k, none) := by
  obtain ⟨p, hp, -⟩ := run_eq_ok_iff.mp h
  rw [← List.take_append_drop k paths] at hp
  obtain ⟨q, hq, -⟩ := visitAll_front hp
  rw [reached, hq]

/-- One visit leads from a place to the next. -/
theorem reached_visited (h : (run rules mode tree paths).result = .ok done)
    (hk : paths[k]? = some path) :
    Visited rules mode (reached rules mode tree paths k) path
      (reached rules mode tree paths (k + 1), none) := by
  have hnext := visitAll_take h (k + 1)
  rw [take_succ_of_getElem? hk, visitAll_append (visitAll_take h k)] at hnext
  obtain ⟨q, hvisited, hlast⟩ := visitAll_cons_inv hnext
  cases hlast
  exact hvisited

theorem run_of_reached (h : (run rules mode tree paths).result = .ok done) :
    (reached rules mode tree paths paths.length).summary = done ∧
      (reached rules mode tree paths paths.length).tree =
        (run rules mode tree paths).tree := by
  have hall := visitAll_take h paths.length
  rw [List.take_length] at hall
  obtain ⟨p, hp, hdone⟩ := run_eq_ok_iff.mp h
  rw [hp] at hall
  cases hall
  exact ⟨hdone, by rw [run_of_done hp]⟩

/-- What holds at the start and is kept from each place to the next, holds at
the end. -/
theorem places_induction {I : List String → Progress → Prop}
    (h : (run rules mode tree paths).result = .ok done) (hnil : I [] { tree })
    (hstep : ∀ k path, paths[k]? = some path →
      Visited rules mode (reached rules mode tree paths k) path
        (reached rules mode tree paths (k + 1), none) →
      I (paths.take k) (reached rules mode tree paths k) →
      I (paths.take k ++ [path]) (reached rules mode tree paths (k + 1))) :
    I paths (reached rules mode tree paths paths.length) := by
  have hall : ∀ k ≤ paths.length,
      I (paths.take k) (reached rules mode tree paths k) := by
    intro k
    induction k with
    | zero => exact fun _ => hnil
    | succ k ih =>
        intro hk
        have hpath : paths[k]? = some paths[k] := List.getElem?_eq_getElem hk
        rw [take_succ_of_getElem? hpath]
        exact hstep k _ hpath (reached_visited h hpath)
          (ih (Nat.le_of_succ_le hk))
  have hlast := hall paths.length (Nat.le_refl _)
  rw [List.take_length] at hlast
  exact hlast

theorem changed_eq_picked {test : Nat → String → Bool}
    (h : (run rules mode tree paths).result = .ok done)
    (hstep : ∀ k path, paths[k]? = some path →
      Visited rules mode (reached rules mode tree paths k) path
        (reached rules mode tree paths (k + 1), none) →
      (reached rules mode tree paths (k + 1)).summary.changed =
        (reached rules mode tree paths k).summary.changed ++
          if test k path then [path] else []) :
    done.changed = picked test paths := by
  rw [← (run_of_reached h).1]
  refine places_induction
    (I := fun front p => p.summary.changed = picked test front) h rfl ?_
  intro k path hk hvisited ih
  have hlt := (List.getElem?_eq_some_iff.mp hk).1
  rw [hstep k path hk hvisited, ih, picked_concat,
    List.length_take_of_le (Nat.le_of_lt hlt)]

end Codemod.Batch
