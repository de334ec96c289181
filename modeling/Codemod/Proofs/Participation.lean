import Codemod.Proofs.Residue

/-!
# Groups that take part

A template fails only where it asks for a group that took no part in the match.
The groups that the five rules ask for are linked to their patterns by nothing
but names; here they are looked up, and each is found to stand in a row with
the rest of its pattern, so that no match can leave it out. Only the
indentation of an assertion may be missing, and for that one there is a
fallback.
-/

namespace Codemod

open Pattern

/-- The group that a part of a template cannot do without. -/
def Part.request? : Part → Option String
  | .group name | .role name => some name
  | .text _ | .optional _ _ | .lineEnding => none

/-- The groups that a template cannot do without, in order. -/
def Template.requests (t : Template) : List String := t.filterMap Part.request?

theorem Part.produce_isOk_iff {h : Hit} {p : Part} :
    (∃ s, p.produce h = .ok s) ↔
    ∀ name ∈ p.request?, ∃ s, h.group name = .ok s := by
  cases p with
  | text | lineEnding | «optional» => exact ⟨fun _ => nofun, fun _ => ⟨_, rfl⟩⟩
  | group name => simp [request?, produce]
  | role name =>
      cases hgroup :
        h.group name <;> simp [request?, produce, hgroup, Except.map]

/-- A template can be filled if and only if every group that it cannot do
without is there. -/
theorem Template.produce_isOk_iff {h : Hit} {t : Template} :
    (∃ s, t.produce h = .ok s) ↔
    ∀ name ∈ t.requests, ∃ s, h.group name = .ok s := by
  induction t with
  | nil =>
      exact ⟨fun _ _ hname => absurd hname List.not_mem_nil, fun _ => ⟨"", rfl⟩⟩
  | cons p ps ih =>
      have hcons : (∃ s, produce (p :: ps) h = .ok s) ↔
          (∃ s, p.produce h = .ok s) ∧ ∃ s, produce ps h = .ok s := by
        rw [produce]
        cases p.produce h <;> cases produce ps h <;>
          simp [bind, Except.bind, pure, Except.pure]
      rw [hcons, Part.produce_isOk_iff, ih, requests, requests,
        List.filterMap_cons]
      cases hrequest : p.request? with
      | none => simp
      | some name => simp

namespace Migration

/-- Every group that the template cannot do without stands in a row with the
rest of the shape. -/
def answered (s : Shape) (names : List String) (t : Template) : Bool :=
  t.requests.all fun name => (Rule.body? (meaning s) names name).isSome

theorem answered_of_fillable {s : Shape} {names : List String} {t : Template}
    (h : (t.outline? (meaning s) names).isSome = true) :
    answered s names t = true := by
  obtain ⟨o, ho⟩ := Option.isSome_iff_exists.mp h
  obtain ⟨os, hos, -⟩ := Option.bind_eq_some_iff.mp ho
  clear ho h
  rw [answered, List.all_eq_true]
  induction t generalizing os with
  | nil => exact fun name hname => absurd hname List.not_mem_nil
  | cons p ps ih =>
      rw [List.mapM_cons] at hos
      obtain ⟨o, hp, hos⟩ := Option.bind_eq_some_iff.mp hos
      obtain ⟨os, hps, -⟩ := Option.bind_eq_some_iff.mp hos
      have hrest := ih os hps
      have hfirst : ∀ name ∈ p.request?,
          (Rule.body? (meaning s) names name).isSome = true := by
        intro name hname
        cases p with
        | text | lineEnding | «optional» => cases hname
        | group name' =>
            cases hname
            obtain ⟨y, hy, -⟩ := Option.map_eq_some_iff.mp hp
            rw [hy]
            rfl
        | role name' =>
            cases hname
            obtain ⟨y, hy, -⟩ := Option.bind_eq_some_iff.mp hp
            rw [hy]
            rfl
      intro name hname
      rw [Template.requests, List.filterMap_cons] at hname
      split at hname
      · exact hrest name hname
      · next name' heq =>
          rcases List.mem_cons.mp hname with rfl | hname
          · exact hfirst name heq
          · exact hrest name hname

/-- Whatever the rule finds in whatever document, each of the groups takes
part, and there is a replacement. -/
def Participates (r : Rule) (groups : List String) : Prop :=
  ∀ document, ∀ m ∈ r.pattern.allMatches document.toList.toArray,
    (∀ name ∈ groups, ∃ text, (r.hit document m).group name = .ok text) ∧
      ∃ s, r.produce (r.hit document m) = .ok s

theorem Made.participates {r : Rule} {s : Shape}
    {t : Template} {names : List String}
    (h : Made r s t names) (ht : answered s names t = true) :
    Participates r t.requests := by
  intro document m hm
  have hgroups : ∀ name ∈ t.requests, ∃ text, (r.hit document m).group name =
      .ok text := by
    intro name hname
    obtain ⟨y, hy⟩ :=
      Option.isSome_iff_exists.mp (List.all_eq_true.mp ht name hname)
    have hocc : r.pattern.Occurrences document.toList.toArray _ :=
      (allMatches_iff h.denotes.whole).mpr rfl
    obtain ⟨l, hl, hhas⟩ := h.denotes.takes_of_mem hocc m hm
    obtain ⟨p, k, ns, -, hgroup⟩ := Rule.group_hit h.names hy hl hhas
    exact ⟨_, hgroup⟩
  refine ⟨hgroups, ?_⟩
  rw [h.produce]
  exact Template.produce_isOk_iff.mpr hgroups

/-- The migration never fails. Every pass over every document gives a result,
and it does because each group that a replacement asks for takes part in every
match of its rule, be the text what it may. -/
theorem pass_never_fails : ∃ rs, Migration.rules = .ok rs ∧
    (∀ document, ∃ migrated, (Rules.run rs document).2 = .ok migrated) ∧
    List.Forall₂ (fun r (x : Template × List String) =>
        r.produce = x.1.produce ∧ x.1.requests = x.2 ∧ Participates r x.2) rs
      [(New.threeImports, []), (New.twoImports, []),
        (New.oneUser, ["binding", "user"]),
        (New.twoUsers, ["binding", "first_user", "first_role", "second_user",
          "second_role"]),
        (New.labelOrVisible, ["labelled", "visible"])] := by
  obtain ⟨r₁, r₂, r₃, r₄, r₅, hrules, -, hset⟩ := rules_eq_ok
  have hanswered : answered Old.labelOrVisible ["indent", "labelled", "visible"]
      New.labelOrVisible = true := by
    decide +kernel
  refine ⟨_, hrules, fun document => ?_, .cons ⟨hset.threeImports.produce,
      rfl, ?_⟩ (.cons ⟨hset.twoImports.produce, rfl, ?_⟩
        (.cons ⟨hset.oneUser.produce, rfl, ?_⟩
          (.cons ⟨hset.twoUsers.produce, rfl, ?_⟩
            (.cons ⟨hset.labelOrVisible.produce, rfl, ?_⟩ .nil))))⟩
  · obtain ⟨migrated, hrun, -⟩ := hset.run_settled document
    exact ⟨migrated, hrun⟩
  · exact hset.threeImports.participates
      (answered_of_fillable hset.threeImports.fillable)
  · exact hset.twoImports.participates
      (answered_of_fillable hset.twoImports.fillable)
  · exact hset.oneUser.participates (answered_of_fillable hset.oneUser.fillable)
  · exact hset.twoUsers.participates
      (answered_of_fillable hset.twoUsers.fillable)
  · exact hset.labelOrVisible.participates hanswered

end Migration

end Codemod
