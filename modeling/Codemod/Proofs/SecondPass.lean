import Codemod.Proofs.Residue

/-!
# A second pass

A second pass has only the last rule to fear: the others find nothing any more.
The last rule may find something, since an assertion inside the subject of
another one hides the outer one until it is split itself. So migrating twice is
not the same as migrating once, and `second_pass_eq_iff` says when it is. That
the last rule never puts back what it has found is a matter of counting: a
match has an opening parenthesis more than its replacement.
-/

namespace Codemod

open Pattern

/-- If every part that was put in has a character less often than the part that
was there, so has the whole. -/
theorem count_weave_le {c : Char} {us vs gs : List (List Char)}
    (h : List.Forall₂ (fun u v => v.count c + 1 ≤ u.count c) us vs)
    (hlen : gs.length = us.length + 1) :
    (weave gs vs).count c + us.length ≤ (weave gs us).count c := by
  induction h generalizing gs with
  | nil => exact Nat.le_refl _
  | @cons u v us vs hv _ ih =>
      cases gs with
      | nil => cases hlen
      | cons g gs =>
          have hrest := ih (Nat.succ.inj hlen)
          rw [weave, weave, List.length_cons]
          simp only [List.count_append]
          omega

namespace Migration

/-- The stroke never is the character. -/
def avoids (d : Char) : Stroke → Bool
  | .one rs | .run rs => rs.all fun r => d.toNat < r.1 || r.2 < d.toNat

theorem ne_of_avoids {d c : Char} {rs : Text.Ranges}
    (h : avoids d (.one rs) = true) (hc : Covers rs c) : c ≠ d := by
  rintro rfl
  obtain ⟨r, hr, hlo, hhi⟩ := hc
  have hout := List.all_eq_true.mp h r hr
  rw [Bool.or_eq_true, decide_eq_true_eq, decide_eq_true_eq] at hout
  omega

/-- The outline leaves no doubt about the character. -/
def settles (d : Char) (o : Outline) :
    Bool := o.all fun s => isJust d s || avoids d s

/-- An outline that leaves no doubt about the character says how often it
occurs. -/
theorem count_eq_sure {d : Char} {o : Outline} {w : List Char} (h : Fits o w)
    (ho : settles d o = true) : w.count d = sure d o := by
  induction h with
  | nil => rfl
  | @one rs o c w hc _ ih =>
      rw [settles, List.all_cons, Bool.and_eq_true, Bool.or_eq_true] at ho
      rw [sure, List.countP_cons, List.count_cons, ih ho.2, sure]
      by_cases hjust : isJust d (.one rs) = true
      · rw [eq_of_isJust hjust hc, beq_self_eq_true, if_pos rfl, if_pos hjust]
      · have hne := ne_of_avoids (ho.1.resolve_left hjust) hc
        rw [if_neg hjust, if_neg (by rw [beq_iff_eq]; exact hne)]
  | skip _ ih =>
      rw [settles, List.all_cons, Bool.and_eq_true] at ho
      rw [ih ho.2, sure, sure, List.countP_cons]
      rfl
  | @more rs o c w hc _ ih =>
      have hfirst := List.all_eq_true.mp ho _ List.mem_cons_self
      rw [List.count_cons_of_ne (ne_of_avoids hfirst hc)]
      exact ih ho

/-- Splitting an assertion keeps the parentheses of the subjects and has four
of its own. -/
theorem Split.count_open {x y s : List Char} (h : Split x y s) :
    s.count '(' = x.count '(' + y.count '(' + 4 := by
  obtain ⟨head, middle, foot, rfl, hhead, hmiddle, hfoot⟩ := h
  obtain ⟨⟨hsure, hhead'⟩, ⟨hsure', hmiddle'⟩, hsure'', hfoot'⟩ :
      (sure '(' headOutline = 0 ∧ settles '(' headOutline = true) ∧
      (sure '(' middleOutline = 1 ∧ settles '(' middleOutline = true) ∧
      sure '(' footOutline = 3 ∧ settles '(' footOutline = true := by
    decide
  simp only [List.count_append]
  rw [count_eq_sure hhead hhead', count_eq_sure hmiddle hmiddle',
    count_eq_sure hfoot hfoot']
  omega

section

variable {r : Rule} {document : String} {edit : Edit}

/-- Every replacement of the last rule takes an opening parenthesis away. -/
theorem split_apply_count (h : Splits r)
    (happly : r.apply document = .ok edit) :
    edit.text.toList.count '(' + edit.replacements ≤
      document.toList.count '(' := by
  obtain ⟨gs, us, vs, hlen, hless, hold, hnew, hcount⟩ := Rule.apply_weave
    (R := fun u v => v.count '(' + 1 ≤ u.count '(') h.denotes happly
    fun m l hl hm => by
      obtain ⟨_, _, _, _, s, hparts, hs, hsplit⟩ := produce_split h hl hm
      have hcount := hparts.count
      refine ⟨s, hs, ?_⟩
      rw [hsplit.count_open, Match.text]
      omega
  rw [hold, hnew, hcount]
  exact count_weave_le hless hlen

/-- The last rule changes every text that it finds something in. -/
theorem split_apply_eq_iff (h : Splits r)
    (happly : r.apply document = .ok edit) :
    edit.text = document ↔
    ∀ i j, ¬ r.pattern.CanMatch document.toList.toArray i j := by
  constructor
  · intro heq i j hcan
    have hcount := split_apply_count h happly
    rw [heq] at hcount
    obtain ⟨l, hl⟩ := h.denotes.canMatch_iff.mp hcan
    exact Rule.not_takes_of_replacements h.denotes happly (by omega) i j l hl
  · intro hno
    have hself := Rule.apply_eq_self h.denotes fun i j l hl =>
      hno i j (h.denotes.canMatch_iff.mpr ⟨l, hl⟩)
    rw [happly] at hself
    cases hself
    rfl

theorem split_apply_lt (h : Splits r)
    (happly : r.apply document = .ok edit) (hne : edit.text ≠ document) :
    edit.text.toList.count '(' < document.toList.count '(' := by
  have hcount := split_apply_count h happly
  refine Nat.lt_of_lt_of_le ?_ hcount
  refine Nat.lt_add_of_pos_right (Nat.pos_of_ne_zero fun hzero => hne ?_)
  exact Rule.text_of_replacements h.denotes happly hzero

end

/-- An assertion in the subject of another one. -/
def nested : String :=
  "await expect("
    ++ "await expect(a).toHaveAttribute('aria-label').or(expect(b).toBeVisible())"
    ++ ").toHaveAttribute('aria-label').or(expect(c).toBeVisible())"

theorem nested_chars : nested.toList = "await expect(".toList
    ++ "await expect(a).toHaveAttribute('aria-label').or(expect(b).toBeVisible())".toList
    ++ ").toHaveAttribute('aria-label').or(expect(c).toBeVisible())".toList := by
  simp only [nested, String.toList_append]

theorem without_of_allTaken {s : Shape} {text : String}
    (hsolid : (meaning s).solid = true)
    (hnone : (meaning s).allTaken 0 none text.toList = []) :
      Without s text := by
  intro i j l hl
  have hmem : (i, j, l) ∈ (meaning s).allTaken 0 none text.toList :=
    (mem_allTaken_iff hsolid).mpr hl
  rw [hnone] at hmem
  cases hmem

/-- What has the shapes in the nested assertions: nothing for the first four
rules, and the inner assertion for the last one. -/
theorem nested_taken : (∀ s ∈ [Old.twoImports, Old.oneUser, Old.twoUsers],
      (meaning s).solid = true ∧ (meaning s).allTaken 0 none nested.toList =
      []) ∧ assertion.allTaken 0 none nested.toList =
      [(13, 86, [(4, 26), (5, 27), (6, 69), (7, 70)])] ∧
    LineEnding.of nested.toList = .lf := by
  rw [nested_chars]
  decide +kernel

theorem settled_nested : Settled nested := by
  have hwithout : ∀ s ∈ [Old.twoImports, Old.oneUser, Old.twoUsers],
      Without s nested := by
    intro s hs
    obtain ⟨hsolid, hnone⟩ := nested_taken.1 s hs
    exact without_of_allTaken hsolid hnone
  exact ⟨hwithout _ (by simp), hwithout _ (by simp), hwithout _ (by simp)⟩

/-- The match of the inner assertion. -/
def innerMatch : Match :=
  ⟨13, 86,
    ((0, 13) :: ([(4, 26), (5, 27), (6, 69), (7, 70)] ++ [(1, 86)])).reverse⟩

/-- Splitting the inner assertion makes a subject that the outer one can
have. -/
theorem split_exposes {r : Rule} (h : Splits r) :
    ∃ edit, r.apply nested = .ok edit ∧
    ∃ i j, r.pattern.CanMatch edit.text.toList.toArray i j := by
  obtain ⟨-, hclosed, hsolid, -⟩ := assertion_checked
  obtain ⟨-, hall, hlf⟩ := nested_taken
  have hindent : (r.hit nested innerMatch).group? "indent" = none := by
    rw [Rule.group?_hit (g := 0) h.names rfl]
    rfl
  have hlabelled : (r.hit nested innerMatch).group "labelled" =
      .ok (String.ofList (slice nested.toList.toArray 26 27)) := by
    rw [Hit.group, Rule.group?_hit (g := 1) h.names rfl]
    rfl
  have hvisible : (r.hit nested innerMatch).group "visible" =
      .ok (String.ofList (slice nested.toList.toArray 69 70)) := by
    rw [Hit.group, Rule.group?_hit (g := 2) h.names rfl]
    rfl
  have hfirst : Part.produce (r.hit nested innerMatch)
      (.optional "indent" "") = .ok "" := by
    rw [Part.produce, hindent]
    rfl
  have hlater : Part.produce (r.hit nested innerMatch)
      (.optional "indent" innerIndent) = .ok innerIndent := by
    rw [Part.produce, hindent]
    rfl
  have hline : Part.produce (r.hit nested innerMatch) .lineEnding =
      .ok LineEnding.lf.text := by
    rw [Part.produce, Rule.hit, hlf]
  have hfilled : List.Forall₂ (fun part s => Part.produce
      (r.hit nested innerMatch) part = .ok s) New.labelOrVisible _ :=
    .cons hfirst (.cons rfl (.cons hlabelled
        (.cons rfl (.cons hline (.cons hlater (.cons rfl (.cons hvisible
          (.cons rfl (.cons hline (.cons hlater (.cons rfl .nil)))))))))))
  obtain ⟨s, hs, hlist⟩ := Template.produce_eq_ok hfilled
  refine Rule.apply_exposes h.denotes hclosed hsolid hall
    (by rw [h.produce]; exact hs) ?_
  rw [hlist, nested_chars]
  decide +kernel

/-- A pass over a settled text is the last rule alone. -/
theorem Ruleset.run_of_settled {r₁ r₂ r₃ r₄ r₅ : Rule}
    (h : Ruleset r₁ r₂ r₃ r₄ r₅) {text : String}
    (ht : Settled text) {edit : Edit} (happly : r₅.apply text = .ok edit) :
    (Rules.run [r₁, r₂, r₃, r₄, r₅] text).2 = .ok edit.text := by
  have hidle : ∀ r ∈ [r₁, r₂, r₃, r₄], r.apply text = .ok ⟨text, 0⟩ :=
    fun r hr => (h.finds_nothing ht r hr).2
  have hrun : Rules.run [r₁, r₂, r₃, r₄, r₅] text = Rules.run [r₅] text :=
    Rules.run_append hidle
  rw [hrun, Rules.run_cons happly, Rules.run]

/-- A second pass over a document gives what the first one gave if and only if
the pattern of the last rule can match nowhere in that, and else takes opening
parentheses away. -/
theorem second_pass_eq_iff (document : String) :
    ∃ rs r migrated again, Migration.rules = .ok rs ∧
    rs.getLast? = some r ∧ r.name = "aria-label-or-visible" ∧
    (Rules.run rs document).2 = .ok migrated ∧
    (Rules.run rs migrated).2 = .ok again ∧
    (again = migrated ↔
      ∀ i j, ¬ r.pattern.CanMatch migrated.toList.toArray i j) ∧
    (again ≠ migrated →
      again.toList.count '(' < migrated.toList.count '(') := by
  obtain ⟨r₁, r₂, r₃, r₄, r₅, hrules, hnames, hset⟩ := rules_eq_ok
  have hsplits := hset.labelOrVisible
  have hname : r₅.name = "aria-label-or-visible" := by
    simp only [List.map_cons, List.cons.injEq] at hnames
    exact hnames.2.2.2.2.1
  obtain ⟨migrated, hrun, hsettled⟩ := hset.run_settled document
  obtain ⟨edit, happly⟩ := split_apply_eq_ok hsplits migrated
  exact ⟨_, r₅, migrated, edit.text, hrules, rfl, hname, hrun,
    hset.run_of_settled hsettled happly, split_apply_eq_iff hsplits happly,
    split_apply_lt hsplits happly⟩

/-- A second pass changes the nested assertions once more. -/
theorem second_pass_changes_nested :
    ∃ rs migrated again, Migration.rules = .ok rs ∧
    (Rules.run rs nested).2 = .ok migrated ∧
    (Rules.run rs migrated).2 = .ok again ∧ again ≠ migrated := by
  obtain ⟨r₁, r₂, r₃, r₄, r₅, hrules, -, hset⟩ := rules_eq_ok
  have hsplits := hset.labelOrVisible
  obtain ⟨edit, happly, i, j, hcan⟩ := split_exposes hsplits
  have hrun := hset.run_of_settled settled_nested happly
  obtain ⟨migrated, hrun', hsettled⟩ := hset.run_settled nested
  rw [hrun] at hrun'
  cases hrun'
  obtain ⟨edit', happly'⟩ := split_apply_eq_ok hsplits edit.text
  refine ⟨_, edit.text, edit'.text, hrules, hrun,
    hset.run_of_settled hsettled happly', ?_⟩
  intro heq
  exact (split_apply_eq_iff hsplits happly').mp heq i j hcan

end Migration

end Codemod
