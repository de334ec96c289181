import Codemod.Proofs.Convergence
import Codemod.Proofs.Places

/-!
# Changed files

A file counts as changed if its text differs after the rules, and an event is
told of each rule that replaced something. For the migration the two agree,
though a rule could put back what it found, and a later rule what an earlier
one replaced: two words together weigh less after every replacement. The first
four rules take away a mention of the old client with everything that they
replace, and the last rule takes away a matcher. No rule puts either of the two
in.
-/

namespace Codemod

/-- The event tells of a rule that replaced something. -/
def Event.replaced : Event → Bool
  | .ruleApplied .. => true
  | .missingSkipped _ | .migrated .. => false

theorem any_replaced {told : List Event} :
    told.any Event.replaced = true ↔ ∃ rule n, .ruleApplied rule n ∈ told := by
  rw [List.any_eq_true]
  refine ⟨fun h => ?_, fun ⟨rule, n, hmem⟩ => ⟨_, hmem, rfl⟩⟩
  obtain ⟨event, hmem, hreplaced⟩ := h
  cases event with
  | ruleApplied rule n => exact ⟨rule, n, hmem⟩
  | missingSkipped | migrated => cases hreplaced

namespace Batch

variable {rules : Rules} {mode : Mode} {p q : Progress} {tree : FileTree}
  {path : String} {paths : List String} {done : Summary}

/-- The rules tell of a replacement if and only if the text changes. -/
def Telling (rules : Rules) : Prop :=
  ∀ text told migrated, rules.run text = (told, .ok migrated) →
    (migrated ≠ text ↔ ∃ rule n, .ruleApplied rule n ∈ told)

/-- A visit counts a target as changed if and only if it tells of a
replacement. -/
theorem Visited.told (htelling : Telling rules)
    (h : Visited rules mode p path (q, none)) :
    ∃ told, q.events = p.events ++ told ∧ q.summary.changed =
      p.summary.changed ++ if told.any Event.replaced then [path] else [] := by
  cases h with
  | skipped => exact ⟨_, rfl, rfl⟩
  | @done text migrated told tree hfile hread hrun hstore =>
      refine ⟨_, rfl, ?_⟩
      have hsame : (migrated != text) =
          (told ++ [Event.migrated path (migrated != text)]).any
          Event.replaced := by
        rw [List.any_append, List.any_cons, List.any_nil, Event.replaced,
          Bool.or_false, Bool.or_false, Bool.eq_iff_iff, bne_iff_ne,
          any_replaced, htelling text told migrated hrun]
      rw [Summary.changed_append, Summary.ofFile, ← hsame]

theorem run_told (htelling : Telling rules)
    (h : (run rules mode tree paths).result = .ok done) :
    ∃ told : Nat → List Event,
      (∀ k < paths.length, (run rules mode tree (paths.take (k + 1))).events =
        (run rules mode tree (paths.take k)).events ++ told k) ∧
      done.changed = picked (fun k _ => (told k).any Event.replaced) paths := by
  refine ⟨fun k => (reached rules mode tree paths (k + 1)).events.drop
    (reached rules mode tree paths k).events.length, fun k hk => ?_, ?_⟩
  · obtain ⟨told, htold, -⟩ :=
      (reached_visited h (List.getElem?_eq_getElem hk)).told htelling
    simp only [run_take_events, htold, List.drop_left]
  · refine changed_eq_picked h fun k path _ hvisited => ?_
    obtain ⟨told, htold, hchanged⟩ := hvisited.told htelling
    simp only [hchanged, htold, List.drop_left]

end Batch

open Pattern

namespace Migration

/-- The measure: how often one of the two words occurs in a document. -/
def weight (document : String) : Nat :=
  occurrences client.toList document.toList + matchers document

section

variable {r₁ r₂ r₃ r₄ r₅ : Rule}

/-- Every replacement of every rule makes the document weigh less. -/
theorem Ruleset.apply_weight (h : Ruleset r₁ r₂ r₃ r₄ r₅) :
    ∀ r ∈ [r₁, r₂, r₃, r₄, r₅], ∀ document edit, r.apply document = .ok edit →
      weight edit.text + edit.replacements ≤ weight document := by
  obtain ⟨hfour, hlast⟩ := h.apply_sheds words_checked.1
  obtain ⟨hfour', hlast'⟩ := h.apply_sheds words_checked.2
  intro r hr document edit happly
  rw [weight, weight, matchers, matchers]
  rcases List.mem_append.mp (show r ∈ [r₁, r₂, r₃, r₄] ++ [r₅] from hr) with hr
    | hr
  · have hmatchers := hfour r hr document edit happly
    have hclients := hfour' r hr document edit happly
    omega
  · rw [List.mem_singleton.mp hr] at happly
    have hmatchers := hlast document edit happly
    have hclients := hlast' document edit happly
    omega

theorem Ruleset.apply_idle (h : Ruleset r₁ r₂ r₃ r₄ r₅) :
    ∀ r ∈ [r₁, r₂, r₃, r₄, r₅], ∀ document edit, r.apply document = .ok edit →
      edit.replacements = 0 → edit.text = document :=
  forall_mem_rules (fun _ _ => Rule.text_of_replacements h.threeImports.denotes)
    (fun _ _ => Rule.text_of_replacements h.twoImports.denotes)
    (fun _ _ => Rule.text_of_replacements h.oneUser.denotes)
    (fun _ _ => Rule.text_of_replacements h.twoUsers.denotes)
    (fun _ _ => Rule.text_of_replacements h.labelOrVisible.denotes)

theorem Ruleset.telling (h : Ruleset r₁ r₂ r₃ r₄ r₅) :
    Batch.Telling [r₁, r₂, r₃, r₄, r₅] := by
  intro text told migrated hrun
  obtain ⟨edits, hedits, htold⟩ := Rules.run_eq_ok hrun
  rw [hedits.ne_iff h.apply_weight h.apply_idle, htold]

end

/-- A pass over a document changes it if and only if one of the rules replaces
something. So a file counts as changed in a batch, in its place in the list, if
and only if the batch tells there of a rule that replaced something. -/
theorem changed_iff_replaced : ∃ rs, Migration.rules = .ok rs ∧
    (∀ document, ∃ edits migrated, Rules.Edits rs document edits migrated ∧
      (Rules.run rs document).2 = .ok migrated ∧
      (migrated ≠ document ↔ ∃ e ∈ edits, 0 < e.replacements)) ∧
    ∀ mode tree paths done, (Batch.run rs mode tree paths).result = .ok done →
      ∃ told : Nat → List Event, (∀ k < paths.length,
        (Batch.run rs mode tree (paths.take (k + 1))).events =
          (Batch.run rs mode tree (paths.take k)).events ++ told k) ∧
        done.changed =
          Batch.picked (fun k _ => (told k).any Event.replaced) paths ∧
        ∀ path, path ∈ done.changed ↔
          ∃ k, paths[k]? = some path ∧
          ∃ rule n, .ruleApplied rule n ∈ told k := by
  obtain ⟨r₁, r₂, r₃, r₄, r₅, hrules, -, hset⟩ := rules_eq_ok
  refine ⟨_, hrules, fun document => ?_, fun mode tree paths done hdone => ?_⟩
  · obtain ⟨edits, migrated, hedits⟩ :=
      Rules.exists_edits hset.apply_eq_ok document
    exact ⟨edits, migrated, hedits, hedits.run_eq,
      hedits.ne_iff hset.apply_weight hset.apply_idle⟩
  · obtain ⟨told, hevents, hchanged⟩ := Batch.run_told hset.telling hdone
    refine ⟨told, hevents, hchanged, fun path => ?_⟩
    rw [hchanged, Batch.mem_picked]
    simp only [any_replaced]

end Migration

end Codemod
