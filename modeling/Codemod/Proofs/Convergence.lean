import Codemod.Proofs.Copies
import Codemod.Proofs.SecondPass

/-!
# Passes until nothing changes

Migrating a document again and again comes to an end. From the second pass on
only the last rule finds anything, and what it finds has a matcher that none of
the replacements of any rule has. Text that a replacement copies may have it,
but had it before. So the occurrences of the matcher's name become fewer with
every pass that changes anything, and one pass more than there were occurrences
in the beginning is enough.
-/

namespace Codemod

open Pattern

namespace Migration

/-- The matcher that the last rule looks for. -/
def matcher : String := "toHaveAttribute"

/-- The name of the old client, which the first four rules look for. -/
def client : String := "prisma"

/-- No rule puts one of the words in. The last rule takes a matcher away with
every replacement, and the first four take a mention of the client away. -/
theorem words_checked :
    rulesShed matcher.toList 0 1 = true ∧
    rulesShed client.toList 1 0 = true := by
  decide +kernel

/-- The measure: how often the matcher occurs in a document. -/
def matchers (document : String) :
    Nat := occurrences matcher.toList document.toList

section

variable {r₁ r₂ r₃ r₄ r₅ : Rule}

theorem Ruleset.split_apply_matchers (h : Ruleset r₁ r₂ r₃ r₄ r₅)
    {document : String} {edit : Edit} (happly : r₅.apply document = .ok edit) :
    matchers edit.text + edit.replacements ≤ matchers document := by
  have hle := (h.apply_sheds words_checked.1).2 document edit happly
  rw [Nat.mul_one] at hle
  exact hle

/-- No rule adds a matcher. -/
theorem Ruleset.apply_matchers (h : Ruleset r₁ r₂ r₃ r₄ r₅) :
    ∀ r ∈ [r₁, r₂, r₃, r₄, r₅], ∀ document edit, r.apply document = .ok edit →
      matchers edit.text ≤ matchers document := by
  obtain ⟨hfour, hlast⟩ := h.apply_sheds words_checked.1
  intro r hr document edit happly
  rcases List.mem_append.mp (show r ∈ [r₁, r₂, r₃, r₄] ++ [r₅] from hr) with hr
    | hr
  · exact Nat.le_of_add_right_le (hfour r hr document edit happly)
  · rw [List.mem_singleton.mp hr] at happly
    exact Nat.le_of_add_right_le (hlast document edit happly)

/-- No pass adds a matcher. -/
theorem Ruleset.run_matchers (h : Ruleset r₁ r₂ r₃ r₄ r₅)
    {document migrated : String}
    (hrun : (Rules.run [r₁, r₂, r₃, r₄, r₅] document).2 = .ok migrated) :
    matchers migrated ≤ matchers document := by
  obtain ⟨edits, migrated', hedits⟩ := Rules.exists_edits h.apply_eq_ok document
  rw [hedits.run_eq] at hrun
  cases hrun
  exact hedits.rel (R := fun u v => matchers v ≤ matchers u)
    (fun _ => Nat.le_refl _)
    (fun hfirst hrest => Nat.le_trans hrest hfirst) h.apply_matchers

/-- A pass over a settled text changes nothing, or leaves a settled text with
fewer matchers. -/
theorem Ruleset.run_progress (h : Ruleset r₁ r₂ r₃ r₄ r₅) {text : String}
    (ht : Settled text) :
    (Rules.run [r₁, r₂, r₃, r₄, r₅] text).2 = .ok text ∨
      ∃ migrated, (Rules.run [r₁, r₂, r₃, r₄, r₅] text).2 = .ok migrated ∧
      Settled migrated ∧ matchers migrated < matchers text := by
  obtain ⟨edit, happly⟩ := split_apply_eq_ok h.labelOrVisible text
  have hrun := h.run_of_settled ht happly
  rcases Nat.eq_zero_or_pos edit.replacements with hzero | hpos
  · rw [Rule.text_of_replacements h.labelOrVisible.denotes happly hzero] at hrun
    exact .inl hrun
  · obtain ⟨migrated, hrun', hsettled⟩ := h.run_settled text
    rw [hrun] at hrun'
    cases hrun'
    have hfewer := h.split_apply_matchers happly
    exact .inr ⟨edit.text, hrun, hsettled, by omega⟩

/-- A settled text needs no more passes than it has matchers. -/
theorem Ruleset.passes_settled (h : Ruleset r₁ r₂ r₃ r₄ r₅) {text : String}
    (ht : Settled text) {n : Nat} (hn : matchers text ≤ n) :
    ∃ final, Rules.passes [r₁, r₂, r₃, r₄, r₅] n text = .ok final ∧
      (Rules.run [r₁, r₂, r₃, r₄, r₅] final).2 = .ok final := by
  induction n generalizing text with
  | zero =>
      rcases h.run_progress ht with hfixed | ⟨migrated, -, -, hfewer⟩
      · exact ⟨text, rfl, hfixed⟩
      · omega
  | succ n ih =>
      rcases h.run_progress ht with hfixed | ⟨migrated, hrun, hsettled, hfewer⟩
      · exact ⟨text, Rules.passes_of_fixed hfixed _, hfixed⟩
      · rw [Rules.passes_succ hrun]
        exact ih hsettled (by omega)

end

/-- Migrating again and again reaches a text that a further pass leaves as it
is, and it takes one pass more than the document has matchers to reach it, or
less. -/
theorem passes_converge : ∃ rs, Migration.rules = .ok rs ∧ ∀ document,
    ∃ final, Rules.passes rs
        (occurrences "toHaveAttribute".toList document.toList + 1) document =
        .ok final ∧ (Rules.run rs final).2 = .ok final := by
  obtain ⟨r₁, r₂, r₃, r₄, r₅, hrules, -, hset⟩ := rules_eq_ok
  refine ⟨_, hrules, fun document => ?_⟩
  obtain ⟨migrated, hrun, hsettled⟩ := hset.run_settled document
  rw [Rules.passes_succ hrun]
  exact hset.passes_settled hsettled (hset.run_matchers hrun)

end Migration

end Codemod
