import Codemod.Proofs.Assertion
import Codemod.Proofs.Passes

/-!
# What one pass leaves

After one pass of the migration nothing is left that one of the first four
rules would replace. The first rule alone does not see to that: what it makes
may give it a new match. But every match of it begins with a match of the
second rule, which leaves none. From there on each rule keeps out what the
rules before it have removed, and removes what it looks for itself.
-/

namespace Codemod

open Pattern

namespace Migration

/-- Nothing in the text has the shape. -/
def Without (s : Shape) (text : String) : Prop :=
  ∀ i j l, ¬ Takes text.toList.toArray (meaning s) i j l

/-- Where no two of the imports are, there are not all three. -/
theorem Without.threeImports {text : String} (h : Without Old.twoImports text) :
    Without Old.threeImports text := by
  intro i j l ht
  have happend : Old.threeImports.pieces =
      Old.twoImports.pieces ++ (Shape.code Code.playwright).pieces := rfl
  rw [meaning, happend] at ht
  obtain ⟨k, ns, hfront⟩ := Shape.takes_front ht
  exact h i k ns hfront

namespace Careful

variable {r : Rule} {s : Shape} {t : Template} {names : List String}
  {qs : List Shape} {document : String} {edit : Edit}

/-- A careful rule always gives a result. -/
theorem apply_eq_ok (h : Careful r s t names qs) (document : String) :
    ∃ edit, r.apply document = .ok edit := by
  obtain ⟨o, ho⟩ := Option.isSome_iff_exists.mp h.fillable
  have hmade : ∀ m l,
      Takes document.toList.toArray (meaning s) m.start m.stop l → m.Has l →
      ∃ s, r.produce (r.hit document m) = .ok s := by
    intro m l hl hm
    obtain ⟨s, hs, -⟩ := Template.produce_outline h.names ho hl hm
    exact ⟨s, by rw [h.produce, hs]⟩
  obtain ⟨ms, rs, -, -, happly⟩ := Rule.apply_replaces h.denotes hmade
  exact ⟨_, happly⟩

/-- A careful rule leaves out what it keeps out, if it was not there before, or
if it is what the rule looks for. -/
theorem without (h : Careful r s t names qs) {q : Shape} (hmem : q ∈ qs)
    (hq : Migration.tidy (meaning q) = true)
    (happly : r.apply document = .ok edit)
    (hold : q = s ∨ Without q document) : Without q edit.text := by
  have hs := h.tidy
  rw [Migration.tidy, Bool.and_eq_true, Bool.and_eq_true] at hs hq
  obtain ⟨edit', happly', hfree⟩ := Rule.apply_free h.denotes hs.2 hq.1.1 hq.1.2
    (hold.imp_left (congrArg meaning)) fun m l hl hm => by
      obtain ⟨s, hs, hpatch⟩ :=
        Template.produce_patch h.names
          (List.all_eq_true.mp h.keeps q hmem) hl hm
      exact ⟨s, by rw [h.produce, hs], hpatch⟩
  rw [happly] at happly'
  cases happly'
  exact hfree

end Careful

section Split

variable {r : Rule} {document : String} {edit : Edit}

/-- The last rule always gives a result too. -/
theorem split_apply_eq_ok (h : Splits r) (document : String) :
    ∃ edit, r.apply document = .ok edit := by
  have hmade : ∀ m l, Takes document.toList.toArray assertion m.start m.stop l →
      m.Has l → ∃ s, r.produce (r.hit document m) = .ok s := by
    intro m l hl hm
    obtain ⟨_, _, _, _, s, -, hs, -⟩ := produce_split h hl hm
    exact ⟨s, hs⟩
  obtain ⟨ms, rs, -, -, happly⟩ := Rule.apply_replaces h.denotes hmade
  exact ⟨_, happly⟩

/-- The last rule keeps out what is apart from all that it makes. -/
theorem split_without (h : Splits r) {q : Shape}
    (hapart : splitsApart (meaning q).outline = true)
    (hq : tidy (meaning q) = true)
    (happly : r.apply document = .ok edit) (hold : Without q document) :
    Without q edit.text := by
  rw [tidy, Bool.and_eq_true, Bool.and_eq_true] at hq
  obtain ⟨edit', happly', hfree⟩ :=
    Rule.apply_free h.denotes assertion_checked.1 hq.1.1 hq.1.2
    (.inr hold) fun m l hl hm => by
      obtain ⟨_, _, _, _, s, hparts, hs, hsplit⟩ := produce_split h hl hm
      exact ⟨s, hs, patch_of_split hapart hq.1.1 hq.1.2 hold hparts hsplit⟩
  rw [happly] at happly'
  cases happly'
  exact hfree

end Split

/-- Nothing is left to do for the first four rules. -/
structure Settled (text : String) : Prop where
  twoImports : Without Old.twoImports text
  oneUser : Without Old.oneUser text
  twoUsers : Without Old.twoUsers text

namespace Ruleset

variable {r₁ r₂ r₃ r₄ r₅ : Rule}

theorem apply_eq_ok (h : Ruleset r₁ r₂ r₃ r₄ r₅) :
    ∀ r ∈ [r₁, r₂, r₃, r₄, r₅], ∀ document, ∃ edit,
      r.apply document = .ok edit :=
  forall_mem_rules h.threeImports.apply_eq_ok
    h.twoImports.apply_eq_ok h.oneUser.apply_eq_ok
    h.twoUsers.apply_eq_ok (split_apply_eq_ok h.labelOrVisible)

/-- One pass settles every document. Each shape is gone after its own rule, and
no later rule brings it back. -/
theorem run_settled (h : Ruleset r₁ r₂ r₃ r₄ r₅) (document : String) :
    ∃ migrated, (Rules.run [r₁, r₂, r₃, r₄, r₅] document).2 = .ok migrated ∧
    Settled migrated := by
  obtain ⟨e₁, h₁⟩ := h.threeImports.apply_eq_ok document
  obtain ⟨e₂, h₂⟩ := h.twoImports.apply_eq_ok e₁.text
  obtain ⟨e₃, h₃⟩ := h.oneUser.apply_eq_ok e₂.text
  obtain ⟨e₄, h₄⟩ := h.twoUsers.apply_eq_ok e₃.text
  obtain ⟨e₅, h₅⟩ := split_apply_eq_ok h.labelOrVisible e₄.text
  refine ⟨e₅.text, ?_, ?_⟩
  · rw [Rules.run_cons h₁, Rules.run_cons h₂, Rules.run_cons h₃,
      Rules.run_cons h₄, Rules.run_cons h₅, Rules.run]
  · have htidy := h.twoImports.tidy
    have htidy' := h.oneUser.tidy
    have htidy'' := h.twoUsers.tidy
    have two₂ := h.twoImports.without (by simp) htidy h₂ (.inl rfl)
    have two₃ := h.oneUser.without (by simp) htidy h₃ (.inr two₂)
    have one₃ := h.oneUser.without (by simp) htidy' h₃ (.inl rfl)
    have two₄ := h.twoUsers.without (by simp) htidy h₄ (.inr two₃)
    have one₄ := h.twoUsers.without (by simp) htidy' h₄ (.inr one₃)
    have both₄ := h.twoUsers.without (by simp) htidy'' h₄ (.inl rfl)
    obtain ⟨hapart, hapart', hapart''⟩ := splitsApart_shapes
    exact ⟨split_without h.labelOrVisible hapart htidy h₅ two₄,
      split_without h.labelOrVisible hapart' htidy' h₅ one₄,
      split_without h.labelOrVisible hapart'' htidy'' h₅ both₄⟩

/-- In a settled text none of the first four rules finds anything. -/
theorem finds_nothing (h : Ruleset r₁ r₂ r₃ r₄ r₅) {text : String}
    (ht : Settled text) :
    ∀ r ∈ [r₁, r₂, r₃, r₄],
      (∀ i j, ¬ r.pattern.CanMatch text.toList.toArray i j) ∧
      r.apply text = .ok ⟨text, 0⟩ := by
  have hmade : ∀ {r s t names}, Made r s t names → Without s text →
      (∀ i j, ¬ r.pattern.CanMatch text.toList.toArray i j) ∧
      r.apply text = .ok ⟨text, 0⟩ := by
    intro r s t names hr hno
    refine ⟨fun i j hcan => ?_, Rule.apply_eq_self hr.denotes hno⟩
    obtain ⟨l, hl⟩ := hr.denotes.canMatch_iff.mp hcan
    exact hno i j l hl
  rw [List.forall_mem_cons, List.forall_mem_cons, List.forall_mem_cons,
    List.forall_mem_singleton]
  exact ⟨hmade h.threeImports.toMade ht.twoImports.threeImports,
    hmade h.twoImports.toMade ht.twoImports, hmade h.oneUser.toMade ht.oneUser,
    hmade h.twoUsers.toMade ht.twoUsers⟩

end Ruleset

/-- The first two of the old imports right before all three. -/
def stacked : String :=
  Code.faker ++ Code.prisma ++ Code.faker ++ Code.prisma ++ Code.playwright

/-- The first rule alone leaves something for itself: when the last three of
the stacked imports are replaced, the first two stand before the import of the
test runner. -/
theorem threeImports_exposes {r : Rule}
    (h : Made r Old.threeImports New.threeImports []) :
    ∃ edit, r.apply stacked = .ok edit ∧
    ∃ i j, r.pattern.CanMatch edit.text.toList.toArray i j := by
  have hchars : stacked.toList = Code.faker.toList ++ Code.prisma.toList ++
      Code.faker.toList ++ Code.prisma.toList ++ Code.playwright.toList := by
    simp only [stacked, String.toList_append]
  have hfacts : (meaning Old.threeImports).closed = true ∧
      (meaning Old.threeImports).solid = true ∧
      (meaning Old.threeImports).allTaken 0 none stacked.toList =
        [(87, 231, [])] ∧ LineEnding.of stacked.toList = .lf := by
    rw [hchars]
    decide +kernel
  obtain ⟨hclosed, hsolid, hall, hlf⟩ := hfacts
  have hline :
      Part.produce (r.hit stacked ⟨87, 231, [(1, 231), (0, 87)]⟩) .lineEnding =
      .ok LineEnding.lf.text := by
    rw [Part.produce, Rule.hit, hlf]
  have hfilled : List.Forall₂ (fun part s => Part.produce
        (r.hit stacked ⟨87, 231, [(1, 231), (0, 87)]⟩) part = .ok s)
      New.threeImports [Code.playwright, LineEnding.lf.text, Code.helpers] :=
    .cons rfl (.cons hline (.cons rfl .nil))
  obtain ⟨s, hs, hlist⟩ := Template.produce_eq_ok hfilled
  refine Rule.apply_exposes h.denotes hclosed hsolid hall
    (by rw [h.produce]; exact hs) ?_
  rw [hlist, hchars]
  decide +kernel

/-- One pass over any document leaves nothing for the first four rules: none of
their patterns can match anywhere, so none of them replaces anything in a
second pass. The first rule alone does not see to that. -/
theorem pass_leaves_no_residue : ∃ rs, Migration.rules = .ok rs ∧
    rs.map Rule.name = ["consolidate-imports", "consolidate-imports-fallback",
      "single-user-organization", "multi-user-organization",
      "aria-label-or-visible"] ∧
    (∀ document, ∃ migrated, (Rules.run rs document).2 = .ok migrated ∧
      (∀ r ∈ rs.take 4,
        (∀ i j, ¬ r.pattern.CanMatch migrated.toList.toArray i j) ∧
        r.apply migrated = .ok ⟨migrated, 0⟩) ∧
      Rules.run rs migrated = Rules.run (rs.drop 4) migrated) ∧
    ∃ r ∈ rs.head?, ∃ document edit, r.apply document = .ok edit ∧
      ∃ i j, r.pattern.CanMatch edit.text.toList.toArray i j := by
  obtain ⟨r₁, r₂, r₃, r₄, r₅, hrules, hnames, hset⟩ := rules_eq_ok
  refine ⟨_, hrules, hnames, ?_, r₁, rfl, stacked,
    threeImports_exposes hset.threeImports.toMade⟩
  intro document
  obtain ⟨migrated, hrun, hsettled⟩ := hset.run_settled document
  have hnothing := hset.finds_nothing hsettled
  refine ⟨migrated, hrun, hnothing, ?_⟩
  have hidle : ∀ r ∈ [r₁, r₂, r₃, r₄], r.apply migrated = .ok ⟨migrated, 0⟩ :=
    fun r hr => (hnothing r hr).2
  exact Rules.run_append hidle

end Migration

end Codemod
