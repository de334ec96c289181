import Codemod.Rule
import Mathlib.Algebra.GroupWithZero.Nat
import Mathlib.Data.List.Basic

/-!
# Passes of rules over a document

A pass applies its rules in order, each to what the one before it left. `Edits`
is the pass rule by rule, and `run_eq_ok` says that a pass which gives a result
is exactly that: the result is what the last rule left, and something was told
if and only if some rule has replaced something. The second fact compares a
text with a count, and two lemmas lead from one to the other: rules that
replaced nothing leave the document, and rules that only take weight away
cannot put a document back.
-/

namespace Codemod.Rules

variable {r : Rule} {rs front back : Rules}
  {document migrated : String} {edit : Edit}

theorem run_cons (h : r.apply document = .ok edit) :
    (Rules.run (r :: rs) document).2 = (Rules.run rs edit.text).2 := by
  rw [Rules.run, h]

/-- Rules that find nothing can be left out. -/
theorem run_append (h : ∀ r ∈ front, r.apply document = .ok ⟨document, 0⟩) :
    Rules.run (front ++ back) document = Rules.run back document := by
  induction front with
  | nil => rfl
  | cons r front ih =>
      rw [List.cons_append, Rules.run, h r List.mem_cons_self]
      exact ih fun r' hr' => h r' (List.mem_cons_of_mem _ hr')

/-! ## Rule by rule -/

/-- The rules make these edits, one after the other, and leave the last text. -/
inductive Edits : Rules → String → List Edit → String → Prop where
  | nil {document : String} : Edits [] document [] document
  | cons {r : Rule} {rs : Rules} {document migrated : String}
      {edit : Edit} {edits : List Edit} (h : r.apply document = .ok edit)
        (h' : Edits rs edit.text edits migrated) :
      Edits (r :: rs) document (edit :: edits) migrated

/-- A pass that gives a result has made edits, and tells of those that replaced
something. -/
theorem run_eq_ok {told : List Event}
    (h : Rules.run rs document = (told, .ok migrated)) :
    ∃ edits, Edits rs document edits migrated ∧
      ((∃ rule n, Event.ruleApplied rule n ∈ told) ↔
        ∃ e ∈ edits, 0 < e.replacements) := by
  induction rs generalizing document told with
  | nil =>
      cases h
      exact ⟨[], .nil, by simp⟩
  | cons r rs ih =>
      rw [Rules.run] at h
      cases happly : r.apply document with
      | error e =>
          rw [happly] at h
          cases h
      | ok edit =>
          rw [happly] at h
          rcases hrun : Rules.run rs edit.text with ⟨told', result⟩
          simp only [hrun] at h
          cases h
          obtain ⟨edits, hedits, htold⟩ := ih hrun
          refine ⟨edit :: edits, .cons happly hedits, ?_⟩
          simp only [List.mem_append, exists_or, htold,
            List.exists_mem_cons_iff]
          refine or_congr_left ?_
          split <;> simp [*]

theorem exists_edits
    (h : ∀ r ∈ rs, ∀ document, ∃ edit, r.apply document = .ok edit)
    (document : String) :
    ∃ edits migrated, Edits rs document edits migrated := by
  induction rs generalizing document with
  | nil => exact ⟨[], document, .nil⟩
  | cons r rs ih =>
      rw [List.forall_mem_cons] at h
      obtain ⟨edit, happly⟩ := h.1 document
      obtain ⟨edits, migrated, hedits⟩ := ih h.2 edit.text
      exact ⟨edit :: edits, migrated, .cons happly hedits⟩

namespace Edits

variable {edits : List Edit}

theorem run_eq (h : Edits rs document edits migrated) :
    (Rules.run rs document).2 = .ok migrated := by
  induction h with
  | nil => rfl
  | cons happly _ ih => rw [run_cons happly, ih]

/-- What every rule does to its document, a pass does to the first one. -/
theorem rel {R : String → String → Prop} (h : Edits rs document edits migrated)
    (hrefl : ∀ document, R document document)
    (htrans : ∀ {first between last}, R first between → R between last →
      R first last) (hstep : ∀ r ∈ rs, ∀ document edit,
        r.apply document = .ok edit → R document edit.text) :
    R document migrated := by
  induction h with
  | nil => exact hrefl _
  | cons happly _ ih =>
      rw [List.forall_mem_cons] at hstep
      exact htrans (hstep.1 _ _ happly) (ih hstep.2)

theorem eq_self (h : Edits rs document edits migrated)
    (hidle : ∀ r ∈ rs, ∀ document edit, r.apply document = .ok edit →
      edit.replacements = 0 → edit.text = document)
    (hnone : ∀ e ∈ edits, e.replacements = 0) : migrated = document := by
  induction h with
  | nil => rfl
  | cons happly _ ih =>
      rw [List.forall_mem_cons] at hidle hnone
      rw [ih hidle.2 hnone.2, hidle.1 _ _ happly hnone.1]

/-- If every replacement takes weight away, a pass takes away as much as it has
replaced. -/
theorem weight_le (h : Edits rs document edits migrated) {weight : String → Nat}
    (hless : ∀ r ∈ rs, ∀ document edit, r.apply document = .ok edit →
      weight edit.text + edit.replacements ≤ weight document) :
    weight migrated + (edits.map Edit.replacements).sum ≤ weight document := by
  induction h with
  | nil => exact Nat.le_refl _
  | cons happly _ ih =>
      rw [List.forall_mem_cons] at hless
      have hfirst := hless.1 _ _ happly
      have hrest := ih hless.2
      rw [List.map_cons, List.sum_cons]
      omega

/-- Where every replacement takes weight away and nothing else changes the
document, it is changed if and only if something was replaced. -/
theorem ne_iff (h : Edits rs document edits migrated) {weight : String → Nat}
    (hless : ∀ r ∈ rs, ∀ document edit, r.apply document = .ok edit →
      weight edit.text + edit.replacements ≤ weight document)
    (hidle : ∀ r ∈ rs, ∀ document edit, r.apply document = .ok edit →
      edit.replacements = 0 → edit.text = document) :
    migrated ≠ document ↔ ∃ e ∈ edits, 0 < e.replacements := by
  constructor
  · intro hne
    by_contra hnone
    refine hne
      (h.eq_self hidle fun e he => Nat.eq_zero_of_not_pos fun hpos => ?_)
    exact hnone ⟨e, he, hpos⟩
  · intro ⟨e, he, hpos⟩ heq
    have hweight := h.weight_le hless
    have hsum : 0 < (edits.map Edit.replacements).sum :=
      List.sum_pos_iff_exists_pos_nat.mpr ⟨_, List.mem_map_of_mem he, hpos⟩
    rw [heq] at hweight
    omega

end Edits

/-! ## One pass after another -/

/-- Apply rules to a document a number of times. The first pass that fails
decides. -/
def passes (rs : Rules) : Nat → String → Except Error String
  | 0, document => .ok document
  | n + 1, document => (Rules.run rs document).2.bind (Rules.passes rs n)

theorem passes_succ (h : (Rules.run rs document).2 = .ok migrated) (n : Nat) :
    Rules.passes rs (n + 1) document = Rules.passes rs n migrated := by
  rw [passes, h]
  rfl

theorem passes_of_fixed (h : (Rules.run rs document).2 = .ok document)
    (n : Nat) :
    Rules.passes rs n document = .ok document := by
  induction n with
  | zero => rfl
  | succ n ih => rw [passes_succ h, ih]

/-- The last of some passes is a pass over what the others left. -/
theorem passes_succ_last {n : Nat} {between : String}
    (h : Rules.passes rs n document = .ok between)
    (h' : (Rules.run rs between).2 = .ok migrated) :
    Rules.passes rs (n + 1) document = .ok migrated := by
  induction n generalizing document with
  | zero =>
      cases h
      rw [passes_succ h', passes]
  | succ n ih =>
      cases hrun : (Rules.run rs document).2 with
      | error e =>
          rw [passes, hrun] at h
          cases h
      | ok first =>
          rw [passes_succ hrun] at h ⊢
          exact ih h

end Codemod.Rules
