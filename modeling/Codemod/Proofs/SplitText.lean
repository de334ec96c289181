import Codemod.Proofs.Anatomy
import Codemod.Proofs.Coverage
import Codemod.Proofs.LineEndings

/-!
# What an assertion is split into

The last rule of the migration from end to end: where a span that it replaces
begins and ends, what it captures of it, and what it puts in its place. The two
subjects are all that stands in their parentheses, without the white space in
front. The indentation is that of the line, if the statement starts its line,
and then the span begins with the line: the search is taken up again behind a
closing parenthesis, which is no indentation, so nothing keeps it from finding
the beginning of the line (`start_of_first`).
-/

namespace Codemod.Migration

open Pattern

/-! ## The rule -/

/-- The rule is there, and its expression has the parts of an assertion. -/
theorem labelOrVisible_eq_ok :
    ∃ r, labelOrVisible = .ok r ∧ r.name = "aria-label-or-visible" ∧
    Splits r ∧ ∃ x, r.pattern.engine = .ofRegex (.group 0 x) ∧ x.solid = true ∧
      Alike x (.seq indentation statement) := by
  obtain ⟨-, -, -, -, haccepted⟩ := rules_checked
  obtain ⟨r, hr, hname, hmade⟩ :=
    made_of_accepted "aria-label-or-visible" New.labelOrVisible
      haccepted (by decide)
  obtain ⟨p, hp, heq⟩ := Rule.compile_eq_ok hr
  obtain ⟨form, names, hread, hpattern⟩ := Pattern.compile_eq_ok hp
  obtain ⟨hform, -⟩ := parts_checked
  rw [Shape.pattern, String.toList_ofList] at hread
  rw [hread, Bool.and_eq_true, beq_iff_eq] at hform
  have hengine : r.pattern.engine = .ofRegex (.group 0 form.regex) := by
    rw [heq, hpattern]
  exact ⟨r, hr, hname, hmade, form.regex, hengine, hform.2,
    alike_of_row hform.1⟩

/-- The rule is the last one of the migration. -/
theorem labelOrVisible_of_rules {r₁ r₂ r₃ r₄ r₅ : Rule}
    (h : Migration.rules = .ok [r₁, r₂, r₃, r₄, r₅]) :
    labelOrVisible = .ok r₅ := by
  rw [Migration.rules] at h
  cases h₁ : threeImports with
  | error e => rw [h₁] at h; cases h
  | ok s₁ =>
  cases h₂ : twoImports with
  | error e => rw [h₁, h₂] at h; cases h
  | ok s₂ =>
  cases h₃ : oneUser with
  | error e => rw [h₁, h₂, h₃] at h; cases h
  | ok s₃ =>
  cases h₄ : twoUsers with
  | error e => rw [h₁, h₂, h₃, h₄] at h; cases h
  | ok s₄ =>
  cases h₅ : labelOrVisible with
  | error e => rw [h₁, h₂, h₃, h₄, h₅] at h; cases h
  | ok s₅ =>
  rw [h₁, h₂, h₃, h₄, h₅] at h
  cases h
  rfl

/-! ## Where a span begins -/

/-- The line of the second place starts at the first one. -/
structure StartsLine (text : Array Char) (start q : Nat) : Prop where
  le : start ≤ q
  start_eq : start = 0 ∨ text[start - 1]? = some '\n'
  plain : '\n' ∉ slice text start q

section

variable {text : Array Char} {i j q k : Nat}

theorem exists_startsLine (hq : q ≤ text.size) :
    ∃ start, StartsLine text start q := by
  induction q with
  | zero =>
      exact ⟨0, Nat.le_refl 0,
        .inl rfl, by rw [slice_self]; exact List.not_mem_nil⟩
  | succ q ih =>
      obtain ⟨start, hle, hstart, hplain⟩ := ih (Nat.le_of_succ_le hq)
      have hlast : text[q]? = some text[q] := Array.getElem?_eq_getElem hq
      by_cases hfeed : text[q] = '\n'
      · refine ⟨q + 1, Nat.le_refl _,
          .inr ?_, by rw [slice_self]; exact List.not_mem_nil⟩
        rw [Nat.add_sub_cancel, hlast, hfeed]
      · refine ⟨start, by omega, hstart, ?_⟩
        rw [← slice_append hle (Nat.le_succ q), slice_succ hlast,
          List.mem_append, List.mem_singleton, not_or]
        exact ⟨hplain, fun heq => hfeed heq.symm⟩

/-- The text has nothing but spaces and tabs in it. -/
def Blank (w : List Char) : Prop := ∀ d ∈ w, d = ' ' ∨ d = '\t'

instance : DecidablePred Blank :=
  fun w => List.decidableBAll (fun d => d = ' ' ∨ d = '\t') w

theorem has_blankSet {c : Char} :
    Piece.blankSet.has c = true ↔ c = ' ' ∨ c = '\t' := by
  have hcode : ∀ d : Char, c = d ↔ c.toNat = d.toNat :=
    fun d => Char.toNat_inj.symm
  rw [hcode, hcode]
  simp only [CharSet.has, Piece.blankSet, Text.Ranges.has, Bool.or_false,
    Bool.and_eq_true, Bool.or_eq_true, decide_eq_true_eq]
  show _ ↔ c.toNat = 0x20 ∨ c.toNat = 0x9
  omega

theorem holds_lineStart {b a : Option Char} :
    Anchor.lineStart.holds b a = true ↔ ∀ c ∈ b, c = '\n' := by
  cases b <;> simp [Anchor.holds]

theorem StartsLine.indents (h : StartsLine text i q)
    (hblank : Blank (slice text i q)) : Indents text i q := by
  refine ⟨h.le, holds_lineStart.mpr fun c hc => ?_,
    fun d hd => has_blankSet.mpr (hblank d hd)⟩
  rw [before?] at hc
  split at hc
  · cases hc
  · next hne =>
      cases (h.start_eq.resolve_left hne).symm.trans hc
      rfl

/-- A place inside an indentation does not start the line. -/
theorem StartsLine.eq_of_indents (h : StartsLine text i q) {i' : Nat}
    (h' : Indents text i' q) (hq : q ≤ text.size) : i' = i := by
  have hle := h.le
  have hle' := h'.le
  rcases Nat.lt_trichotomy i' i with hlt | heq | hlt
  · rcases h.start_eq with rfl | hfeed
    · exact absurd hlt (Nat.not_lt_zero _)
    · have hmem : '\n' ∈ slice text i' q :=
        mem_slice hfeed (by omega) (by omega) hq
      exact absurd (h'.blank _ hmem) (by decide)
  · exact heq
  · obtain ⟨d, hd, -⟩ := slice_eq_cons (show i' - 1 < q by omega) hq
    have hfeed : d = '\n' := by
      refine holds_lineStart.mp h'.start d ?_
      rw [before?, if_neg (by omega), hd]
      rfl
    subst hfeed
    exact absurd (mem_slice hd (by omega) (by omega) hq) h.plain

theorem chosen_of_first {p : Pattern} {x : Regex}
    (hp : p.engine = .ofRegex (.group 0 x)) (hsolid : x.solid = true)
    (hx : Alike x (.seq indentation statement)) {m : Match}
    (hm : p.First text k m) :
    ∃ l c, Foremost text (.seq indentation statement) m.start m.stop l c ∧
    m.Has l := by
  obtain ⟨l, c, hpasses, hhas, hbest⟩ := hm.chosen hp hsolid
  refine ⟨l, c, ⟨(hx _ _ _ _ _).mp hpasses, fun j' l' c' h' hbefore => ?_⟩,
    hhas⟩
  rcases hbest j' l' c' ((hx _ _ _ _ _).mpr h') with rfl | hafter
  · exact Before.irrefl _ hbefore
  · exact hafter.asymm hbefore

/-- The first match from the front of the text or from a closing parenthesis
on: its parts, what is captured, and where it begins. -/
theorem parts_of_first {p : Pattern}
    (hp : p.Denotes assertion) {m : Match} (hm : p.First text k m)
    (hk : k = 0 ∨ text[k - 1]? = some ')') {l : Marks} {c : List Bool}
    (hchosen : Foremost text (.seq indentation statement) m.start m.stop l c) :
    ∃ start q a u b a' u' b' l', StartsLine text start q ∧
    Stands text q a b a' b' m.stop ∧
      Captured text a u b ∧ Captured text a' u' b' ∧
      l = l' ++ [(4, u), (5, b), (6, u'), (7, b')] ∧
      if Blank (slice text start q) then
        m.start = start ∧ l' = [(2, start), (3, q)]
      else m.start = q ∧ l' = [] := by
  obtain ⟨q, l₁, l₂, c₁, c₂, hindent, hrest, rfl, rfl⟩ := hchosen.seq
  have hq : q ≤ text.size := (hindent.takes hm.start_le).le_size
  obtain ⟨a, u, b, a', u', b', hstands, hcaptured, hcaptured', rfl⟩ :=
    Foremost.statement hrest hq
  obtain ⟨start, hline⟩ := exists_startsLine hq
  refine ⟨start, q, a, u, b, a', u', b', l₁, hline, hstands, hcaptured,
    hcaptured', rfl, ?_⟩
  have hle := hline.le
  split
  · next hblank =>
      have hindents := hline.indents hblank
      rcases passes_indentation hindent hm.start_le with ⟨hfound, rfl⟩
        | ⟨rfl, rfl, rfl⟩
      · rw [hline.eq_of_indents hfound hq]
        exact ⟨rfl, rfl⟩
      · obtain ⟨l, c, hall⟩ := hindents.passes hq
        have hcan : p.CanMatch text start m.stop := by
          have hpasses :=
            (alike_assertion _ _ _ _ _).mpr (.seq hall hrest.passes)
          exact hp.canMatch_iff.mpr ⟨_, hpasses.takes (Nat.le_trans hle hq)⟩
        have hks : k ≤ start := by
          refine Nat.le_of_not_lt fun hlt => ?_
          have hkm := hm.le_start
          have hparen := hk.resolve_left (by omega)
          have hmem : ')' ∈ slice text start m.start :=
            mem_slice hparen (by omega) (by omega) hq
          exact absurd (hblank _ hmem) (by decide)
        have heq : start = m.start := by
          refine Nat.le_antisymm hle (Nat.le_of_not_lt fun hlt => ?_)
          exact hm.least _ _ hks hlt hcan
        rw [heq] at hall
        exact absurd (.fork _ _) (hchosen.best _ _ _ (.seq hall hrest.passes))
  · next hblank =>
      rcases passes_indentation hindent hm.start_le with ⟨hfound, -⟩
        | ⟨hq', rfl, -⟩
      · have heq := hline.eq_of_indents hfound hq
        rw [← heq] at hblank
        exact absurd (fun d hd => has_blankSet.mp (hfound.blank d hd)) hblank
      · exact ⟨hq'.symm, rfl⟩

/-! ## What is captured -/

/-- The first place from `i` on where the text goes on with `w` is `q`. -/
structure FirstPlace (text : Array Char) (w : List Char) (i q : Nat) :
    Prop where
  le : i ≤ q
  here : w <+: slice text q text.size
  first : ∀ k, i ≤ k → k < q → ¬ w <+: slice text k text.size

theorem firstPlace_await {a b a' b' start : Nat} (h : Stands text q a b a' b' j)
    (hle : start ≤ q) (hblank : Blank (slice text start q)) :
    FirstPlace text "await".toList start q := by
  refine ⟨hle, h.lead.begins parts_checked.2.2.2.2.1,
    fun k hk hlt hbegins => ?_⟩
  have hbounds := h.bounds
  have hmem : 'a' ∈ slice text start q :=
    mem_slice (getElem?_of_begins hbegins) hk hlt (by omega)
  exact absurd (hblank _ hmem) (by decide)

end

/-- What the rule has found in a document: the first `await` of the match
stands at `q`, and the line of that starts at `start`. If there are only blanks
between the two, the match begins with the line and these blanks are captured;
else it begins with the `await`. The subjects are what stands in the
parentheses, trimmed. -/
structure Finds (h : Hit) (text : Array Char) (q start a b a' b' : Nat) :
    Prop where
  await : FirstPlace text "await".toList h.found.start q
  line : StartsLine text start q
  stands : Stands text q a b a' b' h.found.stop
  labelled : h.group "labelled" = .ok (String.ofList (trimmed (slice text a b)))
  visible : h.group "visible" = .ok (String.ofList (trimmed (slice text a' b')))
  indent : if Blank (slice text start q) then
      h.found.start = start ∧ h.group? "indent" =
        some (String.ofList (slice text start q))
    else h.found.start = q ∧ h.group? "indent" = none

theorem finds_of_first {r : Rule} (hr : Splits r) {x : Regex}
    (hengine : r.pattern.engine = .ofRegex (.group 0 x))
    (hsolid : x.solid = true) (hx : Alike x (.seq indentation statement))
    {document : String} {k : Nat} {m : Match}
    (hm : r.pattern.First document.toList.toArray k m)
    (hk : k = 0 ∨ document.toList.toArray[k - 1]? = some ')') :
    ∃ q start a b a' b',
      Finds (r.hit document m) document.toList.toArray q start a b a' b' := by
  obtain ⟨l, c, hchosen, hhas⟩ := chosen_of_first hengine hsolid hx hm
  obtain ⟨start, q, a, u, b, a', u', b', l', hline, hstands, hcaptured,
      hcaptured', rfl, hbegins⟩ :=
    parts_of_first hr.denotes hm hk hchosen
  have hlabelled : m.span? 2 = some (u, b) :=
    hhas.span?_eq_some (Nat.succ_pos 1)
      ⟨l', [], [(6, u'), (7, b')], rfl, by simp, by simp⟩
  have hvisible : m.span? 3 = some (u', b') :=
    hhas.span?_eq_some (Nat.succ_pos 2)
      ⟨l' ++ [(4, u), (5, b)], [], [], by simp, by simp, by simp⟩
  refine ⟨q, start, a, b, a', b', ?_, hline, hstands, ?_, ?_, ?_⟩
  · show FirstPlace _ _ m.start q
    split at hbegins
    · next hblank =>
        rw [hbegins.1]
        exact firstPlace_await hstands hline.le hblank
    · rw [hbegins.1]
      exact firstPlace_await hstands (Nat.le_refl _)
        (by rw [slice_self]; exact List.forall_mem_nil _)
  · rw [Hit.group, Rule.group?_hit (g := 1) hr.names rfl, hlabelled,
      ← hcaptured.trimmed]
    rfl
  · rw [Hit.group, Rule.group?_hit (g := 2) hr.names rfl, hvisible,
      ← hcaptured'.trimmed]
    rfl
  · rw [Rule.group?_hit (g := 0) hr.names rfl]
    split at hbegins
    · next hblank =>
        obtain ⟨hstart, rfl⟩ := hbegins
        have hindent : m.span? 1 = some (start, q) :=
          hhas.span?_eq_some (Nat.succ_pos 0) ⟨[], [], _, rfl, by simp, by simp⟩
        rw [if_pos hblank, hindent]
        exact ⟨hstart, rfl⟩
    · next hblank =>
        obtain ⟨hstart, rfl⟩ := hbegins
        have hindent : m.span? 1 = none :=
          hhas.span?_eq_none (Nat.succ_pos 0) (by simp)
        rw [if_neg hblank, hindent]
        exact ⟨hstart, rfl⟩

/-! ## What is put in its place -/

/-- The text that an assertion is split into: two queries and one assertion,
with these indentations, subjects and line ends. -/
def splitText (indent inner labelled visible eol : List Char) : List Char :=
  indent ++ "const hasAriaLabel = await ".toList ++ labelled ++
    ".getAttribute('aria-label')".toList ++ eol ++ inner ++
    "const hasLabel = await ".toList ++ visible ++ ".isVisible()".toList ++
    eol ++ inner ++ "expect(hasAriaLabel || hasLabel).toBeTruthy()".toList

theorem produce_splitText {h : Hit} {labelled visible : String}
    (hl : h.group "labelled" = .ok labelled)
    (hv : h.group "visible" = .ok visible) :
    ∃ s, New.labelOrVisible.produce h = .ok s ∧
      s.toList = splitText ((h.group? "indent").getD "").toList
        ((h.group? "indent").getD innerIndent).toList
        labelled.toList visible.toList h.lineEnding.text.toList := by
  have hfilled : List.Forall₂ (fun part s => Part.produce h part = .ok s)
      New.labelOrVisible _ :=
    .cons rfl (.cons rfl (.cons hl (.cons rfl (.cons rfl (.cons rfl (.cons rfl
      (.cons hv (.cons rfl (.cons rfl (.cons rfl (.cons rfl .nil)))))))))))
  obtain ⟨s, hs, hlist⟩ := Template.produce_eq_ok hfilled
  refine ⟨s, hs, ?_⟩
  rw [hlist]
  simp only [List.map_cons, List.map_nil, List.flatten_cons, List.flatten_nil,
    List.append_nil, splitText, List.append_assoc]

/-- What becomes of a match of the rule. Its first `await` stands at `q`, and
the line of that starts at `start`. If there are only blanks between the two,
the match begins with the line and all new lines have these blanks in front;
else it begins with the `await`, and the two further lines are indented by two
tabs. The subjects are what stands in the parentheses, trimmed. -/
def SplitsMatch (text : Array Char) (eol : List Char) (m : Match)
    (made : List Char) : Prop :=
  ∃ q start a b a' b', FirstPlace text "await".toList m.start q ∧
    StartsLine text start q ∧ Stands text q a b a' b' m.stop ∧
    if Blank (slice text start q) then
      m.start = start ∧
        made = splitText (slice text start q) (slice text start q)
          (trimmed (slice text a b)) (trimmed (slice text a' b')) eol
    else
      m.start = q ∧
        made = splitText [] ['\t', '\t'] (trimmed (slice text a b))
          (trimmed (slice text a' b')) eol

theorem Finds.splitsMatch {h : Hit} {text : Array Char}
    {q start a b a' b' : Nat} (hfinds : Finds h text q start a b a' b') :
    ∃ s, New.labelOrVisible.produce h = .ok s ∧
      SplitsMatch text h.lineEnding.text.toList h.found s.toList := by
  obtain ⟨s, hs, htext⟩ := produce_splitText hfinds.labelled hfinds.visible
  refine ⟨s, hs, q, start, a, b, a', b', hfinds.await, hfinds.line,
    hfinds.stands, ?_⟩
  rw [String.toList_ofList, String.toList_ofList] at htext
  have hindent := hfinds.indent
  split at hindent
  · next hblank =>
      rw [if_pos hblank]
      rw [hindent.2, Option.getD_some, Option.getD_some,
        String.toList_ofList] at htext
      exact ⟨hindent.1, htext⟩
  · next hblank =>
      rw [if_neg hblank]
      rw [hindent.2] at htext
      exact ⟨hindent.1, htext⟩

theorem exists_forall₂ {α β : Type} {R : α → β → Prop} {as : List α}
    (h : ∀ a ∈ as, ∃ b, R a b) :
    ∃ bs, List.Forall₂ R as bs := by
  induction as with
  | nil => exact ⟨[], .nil⟩
  | cons a as ih =>
      obtain ⟨b, hb⟩ := h a List.mem_cons_self
      obtain ⟨bs, hbs⟩ := ih fun x hx => h x (List.mem_cons_of_mem _ hx)
      exact ⟨b :: bs, .cons hb hbs⟩

theorem finds_of_mem {r : Rule}
    (hr : labelOrVisible = .ok r) {document : String} {m : Match}
    (hm : m ∈ r.pattern.allMatches document.toList.toArray) :
    ∃ q start a b a' b',
      Finds (r.hit document m) document.toList.toArray q start a b a' b' := by
  obtain ⟨r', hr', -, hsplits, x, hengine, hsolid, hx⟩ := labelOrVisible_eq_ok
  cases hr.symm.trans hr'
  obtain ⟨-, hclosed, -⟩ := assertion_checked
  have hocc : r.pattern.Occurrences document.toList.toArray _ :=
    (allMatches_iff hsplits.denotes.whole).mpr rfl
  obtain ⟨k, hfirst, hk⟩ := hsplits.denotes.first_of_mem hclosed hocc m hm
  refine finds_of_first hsplits hengine hsolid hx hfirst ?_
  rcases hk with rfl | ⟨m', hmem, rfl⟩
  · exact .inl rfl
  · obtain ⟨l, htakes, -⟩ := hsplits.denotes.takes_of_mem hocc m' hmem
    obtain ⟨q, a, b, a', b', hstands, -⟩ := takes_parts htakes
    exact .inr hstands.last.2

theorem apply_splits {r : Rule}
    (hr : labelOrVisible = .ok r) (document : String) :
    ∃ rs, List.Forall₂ (fun m (s : String) =>
          r.produce (r.hit document m) = .ok s ∧
          SplitsMatch document.toList.toArray
            (LineEnding.of document.toList).text.toList m s.toList)
        (r.pattern.allMatches document.toList.toArray) rs ∧
      r.apply document = .ok ⟨String.ofList
        (weave (gaps document.toList.toArray 0 (r.pattern.allMatches
          document.toList.toArray)) (rs.map String.toList)),
        (r.pattern.allMatches document.toList.toArray).length⟩ := by
  obtain ⟨r', hr', -, hsplits, -⟩ := labelOrVisible_eq_ok
  cases hr.symm.trans hr'
  have heach : ∀ m ∈ r.pattern.allMatches document.toList.toArray, ∃ s : String,
      r.produce (r.hit document m) = .ok s ∧
      SplitsMatch document.toList.toArray
        (LineEnding.of document.toList).text.toList m s.toList := by
    intro m hm
    obtain ⟨q, start, a, b, a', b', hfinds⟩ := finds_of_mem hr hm
    obtain ⟨s, hs, hsplit⟩ := hfinds.splitsMatch
    exact ⟨s, by rw [hsplits.produce]; exact hs, hsplit⟩
  obtain ⟨rs, hrs⟩ := exists_forall₂ heach
  refine ⟨rs, hrs, ?_⟩
  rw [Rule.apply_eq, Rule.splice_eq_ok (hrs.imp fun m s h => h.1)]
  rfl

/-! ## An assertion behind another statement -/

/-- A rule that can take one part of a document only, without an indentation,
splits this part. -/
theorem apply_of_taken {r : Rule}
    (h : Splits r) {document : String} {i j a b a' b' : Nat}
    (hall : assertion.allTaken 0 none document.toList =
      [(i, j, [(4, a), (5, b), (6, a'), (7, b')])]) :
    let text := document.toList.toArray
    ∃ m : Match, r.pattern.Occurrences text [m] ∧
      (r.hit document m).group "labelled" =
        .ok (String.ofList (slice text a b)) ∧
      (r.hit document m).group "visible" =
        .ok (String.ofList (slice text a' b')) ∧
      r.apply document = .ok ⟨String.ofList (slice text 0 i ++
        splitText [] innerIndent.toList (slice text a b) (slice text a' b')
          (LineEnding.of document.toList).text.toList ++
            slice text j text.size), 1⟩ := by
  intro text
  obtain ⟨-, hclosed, hsolid, -⟩ := assertion_checked
  have hocc := h.denotes.occurrences_singleton hclosed hsolid hall
  refine ⟨_, hocc, ?_⟩
  generalize hm : (⟨i, j, _⟩ : Match) = m at hocc
  have hindent : (r.hit document m).group? "indent" = none := by
    rw [Rule.group?_hit (g := 0) h.names rfl, ← hm]
    rfl
  have hlabelled : (r.hit document m).group "labelled" =
      .ok (String.ofList (slice text a b)) := by
    rw [Hit.group, Rule.group?_hit (g := 1) h.names rfl, ← hm]
    rfl
  have hvisible : (r.hit document m).group "visible" =
      .ok (String.ofList (slice text a' b')) := by
    rw [Hit.group, Rule.group?_hit (g := 2) h.names rfl, ← hm]
    rfl
  refine ⟨hlabelled, hvisible, ?_⟩
  obtain ⟨s, hs, hlist⟩ := produce_splitText hlabelled hvisible
  rw [hindent, String.toList_ofList, String.toList_ofList] at hlist
  rw [Rule.apply_once h.denotes hclosed hsolid hall
    (by rw [h.produce, hm]; exact hs), hlist]
  rfl

/-- An assertion behind another statement of its line. -/
def inLine : String :=
  "go(); await expect(a).toHaveAttribute('aria-label').or(expect(b).toBeVisible())\r\n"

/-- The assertion in a line, split. -/
def splitInLine : List Char :=
  "go(); const hasAriaLabel = await a.getAttribute('aria-label')\r\n".toList ++
    "\t\tconst hasLabel = await b.isVisible()\r\n".toList ++
    "\t\texpect(hasAriaLabel || hasLabel).toBeTruthy()\r\n".toList

/-- What an evaluation says of the line: it holds one assertion, which is split
in this way, none of the other shapes, and no line end but its own. -/
theorem inLine_checked :
    assertion.allTaken 0 none inLine.toList =
      [(6, 79, [(4, 19), (5, 20), (6, 62), (7, 63)])] ∧
    slice inLine.toList.toArray 0 6 ++
      splitText [] innerIndent.toList (slice inLine.toList.toArray 19 20)
        (slice inLine.toList.toArray 62 63)
        (LineEnding.of inLine.toList).text.toList ++
      slice inLine.toList.toArray 79 inLine.toList.toArray.size =
        splitInLine ∧
    slice inLine.toList.toArray 19 20 ≠ ['\n'] ∧
    slice inLine.toList.toArray 62 63 ≠ ['\n'] ∧
    (∀ s ∈ [Old.twoImports, Old.oneUser, Old.twoUsers],
      (meaning s).solid = true ∧
      (meaning s).allTaken 0 none inLine.toList = []) ∧
    inLine.toList = inLine.toList.take 79 ++ ['\r', '\n'] ∧
    '\n' ∉ inLine.toList.take 79 := by
  decide +kernel

theorem apply_inLine {r : Rule} (h : Splits r) :
    r.apply inLine = .ok ⟨String.ofList splitInLine, 1⟩ := by
  obtain ⟨htaken, hsplit, -⟩ := inLine_checked
  obtain ⟨m, -, -, -, happly⟩ := apply_of_taken h htaken
  rw [happly, hsplit]

/-- The last rule of the migration from end to end. -/
theorem labelOrVisible_splits :
    ∃ r, labelOrVisible = .ok r ∧ r.name = "aria-label-or-visible" ∧
    (∃ rs, Migration.rules = .ok rs ∧ r ∈ rs) ∧ ∀ document : String,
      ∃ ms rs, r.pattern.Occurrences document.toList.toArray ms ∧
      List.Forall₂ (fun m (s : String) => SplitsMatch document.toList.toArray
        (if ['\r', '\n'] <:+: document.toList then ['\r', '\n'] else ['\n'])
        m s.toList) ms rs ∧
      r.apply document = .ok ⟨String.ofList
        (weave (gaps document.toList.toArray 0 ms) (rs.map String.toList)),
        ms.length⟩ := by
  obtain ⟨r₁, r₂, r₃, r₄, r₅, hrules, -, -⟩ := rules_eq_ok
  obtain ⟨r, hr, hname, hsplits, -⟩ := labelOrVisible_eq_ok
  cases (labelOrVisible_of_rules hrules).symm.trans hr
  refine ⟨_, hr, hname, ⟨_, hrules, by simp⟩, fun document => ?_⟩
  obtain ⟨rs, hrs, happly⟩ := apply_splits hr document
  rw [lineEnding_text] at hrs
  exact ⟨_, rs, (allMatches_iff hsplits.denotes.whole).mpr rfl,
    hrs.imp fun m s h => h.2, happly⟩

/-- There is one assertion in the line, and the rule has split it. -/
theorem labelOrVisible_splits_inLine : ∃ r m s, labelOrVisible = .ok r ∧
    r.pattern.Occurrences inLine.toList.toArray [m] ∧
    SplitsMatch inLine.toList.toArray ['\r', '\n'] m s ∧
    r.apply inLine = .ok ⟨String.ofList splitInLine, 1⟩ := by
  obtain ⟨htaken, -, -, -, -, hcut, -⟩ := inLine_checked
  obtain ⟨r, hr, -, -, hall⟩ := labelOrVisible_splits
  obtain ⟨r', hr', -, hsplits, -⟩ := labelOrVisible_eq_ok
  cases hr.symm.trans hr'
  obtain ⟨ms, rs, hocc, hmade, -⟩ := hall inLine
  obtain ⟨m, hone, -⟩ := apply_of_taken hsplits htaken
  obtain rfl : ms = [m] :=
    ((allMatches_iff hsplits.denotes.whole).mp hocc).symm.trans
      ((allMatches_iff hsplits.denotes.whole).mp hone)
  have hcrlf : ['\r', '\n'] <:+: inLine.toList :=
    ⟨_, [], (List.append_nil _).trans hcut.symm⟩
  rw [if_pos hcrlf] at hmade
  cases hmade with
  | cons hm _ => exact ⟨r, m, _, hr, hocc, hm, apply_inLine hsplits⟩

end Codemod.Migration
