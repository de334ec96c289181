import Codemod.Proofs.MigrationShapes
import Codemod.Proofs.Turns

/-!
# The rules of the migration

The five rules are there: their patterns are accepted. What each of them is
made of is collected in `Made`, and what the first four have in common in
`Careful`: they fill their templates whatever they have found, and what they
put in keeps out what they and the rules before them look for. All this is a
matter of evaluation. It is checked by `checked`, and that at once, since
evaluating the shapes is most of the work.
-/

namespace Codemod.Migration

open Pattern

/-- The rule looks for a shape, whose slots have these names, and fills a
template. -/
structure Made (r : Rule) (s : Shape) (t : Template) (names : List String) :
    Prop where
  denotes : r.pattern.Denotes (meaning s)
  names : r.pattern.Names names
  produce : r.produce = t.produce

theorem made_of_accepted {s : Shape} {o : Options} {names : List String}
    (name : String)
    (t : Template) (h : accepted s o names = true) (hnodup : names.Nodup) :
    ∃ r, Rule.compile name s.pattern o t.produce = .ok r ∧ r.name = name ∧
    Made r s t names := by
  obtain ⟨p, hp, hnames, hdenotes⟩ := compile_of_accepted h hnodup
  refine ⟨⟨name, p, t.produce⟩, ?_, rfl, hdenotes, hnames, rfl⟩
  rw [Rule.compile, hp]

/-- What the seams of a replacement need to know of an expression: it looks
around only for the ends of words, ends with a character, and not with a word
character. -/
def tidy (x : Regex) : Bool :=
  x.worded && x.closed && x.outline.endsPlain

theorem tidy_iff {x : Regex} : tidy x = true ↔
    (x.worded = true ∧ x.closed = true) ∧ x.outline.endsPlain = true := by
  rw [tidy, Bool.and_eq_true, Bool.and_eq_true]

/-- The replacements of the rule keep each of the shapes out. -/
def keepsAllOut (s : Shape) (t : Template) (names : List String)
    (qs : List Shape) : Bool :=
  qs.all fun q => t.keepsOut (meaning s) names (meaning q).outline

/-- The rule always has a replacement, and its replacements keep the shapes
`qs` out. -/
structure Careful (r : Rule) (s : Shape) (t : Template)
    (groups : List String) (qs : List Shape) :
    Prop extends Made r s t groups where
  fillable : (t.outline? (meaning s) groups).isSome = true
  tidy : tidy (meaning s) = true
  keeps : keepsAllOut s t groups qs = true

/-- A careful rule with a sharp shape can be told from left to right. -/
theorem Careful.isLocal {r : Rule} {s : Shape}
    {t : Template} {names : List String} {qs : List Shape}
    (h : Careful r s t names qs) (hsharp : (meaning s).sharp anything = true)
    (ht : .lineEnding ∉ t) : r.Local (meaning s) := by
  obtain ⟨⟨hworded, hclosed⟩, -⟩ := tidy_iff.mp h.tidy
  exact ⟨h.denotes, hsharp, hworded, hclosed, t, names, h.produce, ht,
    h.names, h.fillable⟩

/-- What is checked about a careful rule. -/
def checked (s : Shape) (o : Options) (t : Template) (names : List String)
    (qs : List Shape) : Bool :=
  accepted s o names && (t.outline? (meaning s) names).isSome &&
    tidy (meaning s) && keepsAllOut s t names qs

theorem careful_of_checked {s : Shape} {o : Options} {t : Template}
    {names : List String} {qs : List Shape} (name : String)
    (h : checked s o t names qs = true) (hnodup : names.Nodup) :
    ∃ r, Rule.compile name s.pattern o t.produce = .ok r ∧ r.name = name ∧
      Careful r s t names qs := by
  rw [checked, Bool.and_eq_true, Bool.and_eq_true, Bool.and_eq_true] at h
  obtain ⟨⟨⟨haccepted, hfillable⟩, htidy⟩, hkeeps⟩ := h
  obtain ⟨r, hr, hname, hmade⟩ := made_of_accepted name t haccepted hnodup
  exact ⟨r, hr, hname, hmade, hfillable, htidy, hkeeps⟩

/-- The rules of the migration, in order. Each keeps out what the ones before
it look for; only the first may put in what it looks for itself. -/
structure Ruleset (r₁ r₂ r₃ r₄ r₅ : Rule) : Prop where
  threeImports : Careful r₁ Old.threeImports New.threeImports [] []
  twoImports : Careful r₂ Old.twoImports New.twoImports [] [Old.twoImports]
  oneUser : Careful r₃ Old.oneUser New.oneUser ["binding",
    "user"] [Old.twoImports, Old.oneUser]
  twoUsers : Careful r₄ Old.twoUsers New.twoUsers
    ["binding", "first_user", "first_role", "second_user", "second_role"]
    [Old.twoImports, Old.oneUser, Old.twoUsers]
  labelOrVisible : Made r₅ Old.labelOrVisible New.labelOrVisible ["indent",
    "labelled", "visible"]

theorem forall_mem_rules {P : Rule → Prop} {r₁ r₂ r₃ r₄ r₅ : Rule}
    (h₁ : P r₁) (h₂ : P r₂)
    (h₃ : P r₃) (h₄ : P r₄) (h₅ : P r₅) : ∀ r ∈ [r₁, r₂, r₃, r₄, r₅], P r := by
  simp only [List.forall_mem_cons, List.not_mem_nil, false_implies,
    implies_true, and_true]
  exact ⟨h₁, h₂, h₃, h₄, h₅⟩

theorem rules_checked :
    checked Old.threeImports .plain New.threeImports [] [] = true ∧
    checked Old.twoImports .plain New.twoImports [] [Old.twoImports] = true ∧
    checked Old.oneUser .structural New.oneUser ["binding", "user"]
      [Old.twoImports, Old.oneUser] = true ∧
    checked Old.twoUsers .structural New.twoUsers
      ["binding", "first_user", "first_role", "second_user", "second_role"]
      [Old.twoImports, Old.oneUser, Old.twoUsers] = true ∧
    accepted Old.labelOrVisible { multiLine := true }
      ["indent", "labelled", "visible"] = true := by
  decide +kernel

theorem rules_eq_ok :
    ∃ r₁ r₂ r₃ r₄ r₅, Migration.rules = .ok [r₁, r₂, r₃, r₄, r₅] ∧
    [r₁, r₂, r₃, r₄, r₅].map Rule.name = ["consolidate-imports",
      "consolidate-imports-fallback", "single-user-organization",
      "multi-user-organization", "aria-label-or-visible"] ∧
    Ruleset r₁ r₂ r₃ r₄ r₅ := by
  obtain ⟨hthree, htwo, hone, hboth, hlabel⟩ := rules_checked
  obtain ⟨r₁, h₁, hn₁, hm₁⟩ :=
    careful_of_checked "consolidate-imports" hthree (by decide)
  obtain ⟨r₂, h₂, hn₂, hm₂⟩ :=
    careful_of_checked "consolidate-imports-fallback" htwo (by decide)
  obtain ⟨r₃, h₃, hn₃, hm₃⟩ :=
    careful_of_checked "single-user-organization" hone (by decide)
  obtain ⟨r₄, h₄, hn₄, hm₄⟩ :=
    careful_of_checked "multi-user-organization" hboth (by decide)
  obtain ⟨r₅, h₅, hn₅, hm₅⟩ :=
    made_of_accepted "aria-label-or-visible" New.labelOrVisible hlabel
    (by decide)
  refine ⟨r₁, r₂, r₃, r₄, r₅, ?_, ?_, hm₁, hm₂, hm₃, hm₄, hm₅⟩
  · rw [Migration.rules, Migration.threeImports,
      Migration.twoImports, Migration.oneUser,
      Migration.twoUsers, Migration.labelOrVisible, h₁, h₂, h₃, h₄, h₅]
    rfl
  · rw [List.map_cons, List.map_cons, List.map_cons, List.map_cons,
      List.map_cons, hn₁, hn₂, hn₃, hn₄, hn₅]
    rfl

end Codemod.Migration
