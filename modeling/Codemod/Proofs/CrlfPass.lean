import Codemod.Proofs.ImportScan
import Codemod.Proofs.SecondPass
import Codemod.Proofs.SplitText

/-!
# A pass over a document with Windows line endings

Does a document with Windows line endings keep them? The first four rules see
to that: of what they put in only the imports have a line feed, and the
document that has line feeds tells how to end a line. The last rule may break
it in two ways. The rules before it may have taken all line feeds away, so that
it is not told any more; and a subject that is all white space is captured
without what stands before its last character, so a line feed may lose its
carriage return. `pass_crlf_iff` says that there is no other way.
-/

namespace Codemod

open Pattern

theorem not_mem_of_avoids {d : Char} {o : Outline} {w : List Char}
    (h : Fits o w) (ho : o.all (Migration.avoids d) = true) : d ∉ w := by
  induction h with
  | nil => exact List.not_mem_nil
  | one hc _ ih =>
      rw [List.all_cons, Bool.and_eq_true] at ho
      rw [List.mem_cons, not_or]
      exact ⟨(Migration.ne_of_avoids ho.1 hc).symm, ih ho.2⟩
  | skip _ ih =>
      rw [List.all_cons, Bool.and_eq_true] at ho
      exact ih ho.2
  | more hc _ ih =>
      have hfirst := List.all_eq_true.mp ho _ List.mem_cons_self
      rw [List.mem_cons, not_or]
      exact ⟨(Migration.ne_of_avoids hfirst hc).symm, ih ho⟩

/-- Every text of the outline ends with another character. -/
def Pattern.Outline.endsWithout (d : Char) (o : Outline) : Bool :=
  (o.lasts none).any fun rs => Migration.avoids d (.one rs)

theorem before_ne_of_endsWithout {d : Char} {x : Regex}
    {text : Array Char} {i j : Nat} {l : Marks}
    (h : Takes text x i j l) (hx : x.outline.endsWithout d = true) :
    before? text j ≠ some d := by
  rw [Outline.endsWithout, Option.any_eq_true] at hx
  obtain ⟨rs, hrs, havoids⟩ := hx
  have hlast : ∃ c, ([] ++ slice text i j).getLast? = some c ∧ Covers rs c :=
    h.spells.fits.getLast? (fun _ heq => by cases heq) hrs
  obtain ⟨c, hc, hcovers⟩ := hlast
  rw [List.nil_append] at hc
  rw [← getLast?_slice_or h.le h.le_size, hc]
  exact fun heq => Migration.ne_of_avoids havoids hcovers (Option.some.inj heq)

theorem forall_mem_iff_of_forall₂ {α β : Type} {R : α → β → Prop}
    {Q : β → Prop} {as : List α} {bs : List β} (h : List.Forall₂ R as bs)
    (hone : ∀ {a b b'}, R a b → R a b' → b = b') :
    (∀ b ∈ bs, Q b) ↔ ∀ a ∈ as, ∀ b, R a b → Q b := by
  induction h with
  | nil => exact iff_of_true (List.forall_mem_nil _) (List.forall_mem_nil _)
  | cons hab _ ih =>
      rw [List.forall_mem_cons, List.forall_mem_cons, ih]
      exact and_congr_left fun _ =>
        ⟨fun hb b' hb' => hone hab hb' ▸ hb, fun hb => hb _ hab⟩

/-- A rule whose matches do not end with a carriage return, and whose
replacements do not begin with a line feed, keeps line endings exactly if all
replacements have them. -/
theorem Rule.apply_crlf {r : Rule} {x : Regex} (hx : r.pattern.Denotes x)
    (hends : x.outline.endsWithout '\r' = true) {document : String}
    (hdocument : Crlf none document.toList) {edit : Edit}
    (happly : r.apply document = .ok edit)
    (hhead : ∀ m ∈ r.pattern.allMatches document.toList.toArray, ∀ s,
      r.produce (r.hit document m) = .ok s → s.toList.head? ≠ some '\n') :
    Crlf none edit.text.toList ↔
    ∀ m ∈ r.pattern.allMatches document.toList.toArray, ∀ s,
      r.produce (r.hit document m) = .ok s → Crlf none s.toList := by
  have hocc : r.pattern.Occurrences document.toList.toArray _ :=
    (allMatches_iff hx.whole).mpr rfl
  obtain ⟨rs, hrs, rfl⟩ := Rule.weave_of_apply happly
  generalize r.pattern.allMatches document.toList.toArray = ms at hocc hrs hhead
  have hall : List.Forall₂ (fun m s => before? document.toList.toArray m.stop ≠
      some '\r' ∧ s.head? ≠ some '\n') ms (rs.map String.toList) := by
    rw [List.forall₂_map_right_iff]
    refine List.forall₂_iff_zip.mpr ⟨hrs.length_eq, fun hmem => ?_⟩
    have hm := (List.of_mem_zip hmem).1
    obtain ⟨l, hl, -⟩ := hx.takes_of_mem hocc _ hm
    exact ⟨before_ne_of_endsWithout hl hends,
      hhead _ hm _ ((List.forall₂_iff_zip.mp hrs).2 hmem)⟩
  have hfront : ∀ j, 0 ≤ j → j ≤ document.toList.toArray.size →
      Crlf none (slice document.toList.toArray 0 j) :=
    fun j hj hsize => crlf_slice hdocument hj hsize
  rw [String.toList_ofList]
  refine (crlf_weave hdocument hall hocc.ordered hfront).trans ?_
  rw [List.forall_mem_map]
  exact forall_mem_iff_of_forall₂ hrs fun h h' => by
    cases h.symm.trans h'
    rfl

/-! ## Trimmed text -/

theorem trimmed_suffix (w : List Char) : ∃ u, w = u ++ trimmed w := by
  rw [trimmed]
  split
  · cases hlast : w.getLast? with
    | none =>
        rw [List.getLast?_eq_none_iff.mp hlast]
        exact ⟨[], rfl⟩
    | some c => exact List.getLast?_eq_some_iff.mp hlast
  · exact ⟨w.takeWhile Text.isWhite, List.takeWhile_append_dropWhile.symm⟩

/-- A trimmed text begins with white space only if it is nothing else than
that. -/
theorem trimmed_of_head {w : List Char} {c : Char}
    (hhead : (trimmed w).head? = some c)
    (hc : Text.isWhite c = true) : trimmed w = [c] := by
  rw [trimmed] at hhead ⊢
  split at hhead
  · next hall =>
      rw [if_pos hall]
      cases hlast : w.getLast? with
      | none =>
          rw [hlast] at hhead
          cases hhead
      | some d =>
          rw [hlast] at hhead
          cases hhead
          rfl
  · have hnot := List.head?_dropWhile_not Text.isWhite w
    rw [hhead] at hnot
    cases hc.symm.trans (by simpa using hnot)

/-- A trimmed part of a text keeps the line endings, unless it is a line feed
alone. -/
theorem crlf_trimmed_iff {text : Array Char} {i j : Nat}
    (htext : Crlf none text.toList) (hij : i ≤ j)
    (hj : j ≤ text.size) {c : Char} (hc : c ≠ '\r') :
    Crlf (some c) (trimmed (slice text i j)) ↔
    trimmed (slice text i j) ≠ ['\n'] := by
  constructor
  · intro h heq
    rw [heq] at h
    exact hc (Option.some.inj (crlf_feed_iff.mp h))
  · intro hne
    obtain ⟨u, hu⟩ := trimmed_suffix (slice text i j)
    have hpart := crlf_slice htext hij hj
    rw [hu] at hpart
    exact (crlf_append.mp hpart).2.moved fun hhead =>
      hne (trimmed_of_head hhead (by decide))

namespace Migration

theorem crlf_splitText {indent inner labelled visible eol : List Char}
    (hindent : '\n' ∉ indent) (hinner : '\n' ∉ inner) :
    Crlf none (splitText indent inner labelled visible eol) ↔
      Crlf (some ' ') labelled ∧ Crlf (some ')') eol ∧
      Crlf (some ' ') visible := by
  have hplain : ∀ {b : Option Char} {w : List Char}, '\n' ∉ w →
      (Crlf b w ↔ True) :=
    fun h => iff_true_intro (crlf_of_not_mem h)
  obtain ⟨hlabel, hcall, hquery, hshow, hfoot⟩ :
      ('\n' ∉ "const hasAriaLabel = await ".toList ∧
        "const hasAriaLabel = await ".toList.getLast? = some ' ') ∧
      ('\n' ∉ ".getAttribute('aria-label')".toList ∧
        ".getAttribute('aria-label')".toList.getLast? = some ')') ∧
      ('\n' ∉ "const hasLabel = await ".toList ∧
        "const hasLabel = await ".toList.getLast? = some ' ') ∧
      ('\n' ∉ ".isVisible()".toList ∧
        ".isVisible()".toList.getLast? = some ')') ∧
      '\n' ∉ "expect(hasAriaLabel || hasLabel).toBeTruthy()".toList := by
    decide +kernel
  rw [splitText]
  simp only [crlf_append, List.getLast?_append, hlabel.2, hcall.2,
    hquery.2, hshow.2, Option.some_or, hplain hlabel.1, hplain hcall.1,
    hplain hquery.1, hplain hshow.1, hplain hfoot, hplain hindent,
    hplain hinner, true_and, and_true]
  constructor
  · rintro ⟨⟨⟨hx, heol⟩, hy⟩, -⟩
    exact ⟨hx, heol, hy⟩
  · rintro ⟨hx, heol, hy⟩
    exact ⟨⟨⟨hx, heol⟩, hy⟩, heol⟩

/-! ## The rules -/

/-- The replacements of a template have no line feed. -/
def dry (s : Shape) (t : Template) (names : List String) : Bool :=
  (t.outline? (meaning s) names).any fun o => o.all (avoids '\n')

/-- What is checked about the rules: none of them matches a carriage return at
the end, and the second, the third and the fourth put in no line feed. -/
theorem endings_checked :
    (∀ s ∈ [Old.threeImports, Old.twoImports, Old.oneUser, Old.twoUsers,
      Old.labelOrVisible], (meaning s).outline.endsWithout '\r' = true) ∧
    dry Old.twoImports New.twoImports [] = true ∧
    dry Old.oneUser New.oneUser ["binding", "user"] = true ∧
    dry Old.twoUsers New.twoUsers ["binding", "first_user",
      "first_role", "second_user", "second_role"] = true ∧
    ('\n' ∉ Code.playwright.toList ∧ Code.playwright.toList.head? = some 'i') ∧
    '\n' ∉ Code.helpers.toList := by
  decide +kernel

section

variable {r : Rule} {s : Shape} {t : Template} {names : List String}
  {qs : List Shape} {document : String} {edit : Edit}

theorem Careful.apply_crlf (h : Careful r s t names qs)
    (hdry : dry s t names = true)
    (hends : (meaning s).outline.endsWithout '\r' = true)
    (hdocument : Crlf none document.toList)
    (happly : r.apply document = .ok edit) : Crlf none edit.text.toList := by
  have hocc : r.pattern.Occurrences document.toList.toArray _ :=
    (allMatches_iff h.denotes.whole).mpr rfl
  have hnone : ∀ m ∈ r.pattern.allMatches document.toList.toArray, ∀ s,
      r.produce (r.hit document m) = .ok s → '\n' ∉ s.toList := by
    intro m hm s hs
    obtain ⟨l, hl, hhas⟩ := h.denotes.takes_of_mem hocc m hm
    rw [dry, Option.any_eq_true] at hdry
    obtain ⟨o, ho, hall⟩ := hdry
    obtain ⟨s', hs', hfits⟩ := Template.produce_outline h.names ho hl hhas
    rw [h.produce, hs'] at hs
    cases hs
    exact not_mem_of_avoids hfits hall
  refine (Rule.apply_crlf h.denotes hends hdocument happly
    fun m hm s hs heq => ?_).mpr
    fun m hm s hs => crlf_of_not_mem (hnone m hm s hs)
  exact hnone m hm s hs (List.mem_of_head? heq)

/-- The first rule ends a line as the document does. -/
theorem threeImports_apply_crlf
    (h : Made r Old.threeImports New.threeImports [])
    (hdocument : Crlf none document.toList) (hfeed : '\n' ∈ document.toList)
    (happly : r.apply document = .ok edit) : Crlf none edit.text.toList := by
  obtain ⟨hends, -, -, -, ⟨hplaywright, hfirst⟩, hhelpers⟩ := endings_checked
  have hmade : ∀ m s, r.produce (r.hit document m) = .ok s →
      s.toList = importLines ['\r', '\n'] := by
    intro m s hs
    obtain ⟨s', hs', hlist⟩ := produce_threeImports (r.hit document m)
    rw [h.produce, hs'] at hs
    cases hs
    have heol := hdocument.lineEnding
    rw [if_pos hfeed] at heol
    rw [hlist, ← heol]
    rfl
  refine (Rule.apply_crlf h.denotes (hends _ (by simp)) hdocument happly
    fun m _ s hs => ?_).mpr fun m _ s hs => ?_
  · rw [hmade m s hs, importLines, List.head?_append, hfirst]
    decide
  · rw [hmade m s hs, importLines]
    exact crlf_append.mpr ⟨crlf_of_not_mem hplaywright,
      crlf_append.mpr ⟨crlf_crlf, crlf_of_not_mem hhelpers⟩⟩

theorem group_ne_iff {h : Hit} {name : String} {w : List Char}
    (hgroup : h.group name = .ok (String.ofList w)) :
    h.group name ≠ .ok "\n" ↔ w ≠ ['\n'] := by
  rw [hgroup]
  constructor
  · rintro hne rfl
    exact hne rfl
  · intro hne heq
    refine hne ?_
    rw [← String.toList_ofList (l := w), Except.ok.inj heq]
    rfl

theorem Finds.not_mem_indent {h : Hit}
    {text : Array Char} {q start a b a' b' : Nat}
    (hfinds : Finds h text q start a b a' b') {fallback : String}
    (hfallback : '\n' ∉ fallback.toList) :
    '\n' ∉ ((h.group? "indent").getD fallback).toList := by
  have hcaptured := hfinds.indent
  split at hcaptured
  · next hblank =>
      rw [hcaptured.2, Option.getD_some, String.toList_ofList]
      exact fun hmem => absurd (hblank _ hmem) (by decide)
  · rw [hcaptured.2]
    exact hfallback

/-- An assertion is split into lines that end as its subjects and the line
ending let them. -/
theorem Finds.crlf_iff {h : Hit} {text : Array Char} {q start a b a' b' : Nat}
    (hfinds : Finds h text q start a b a' b') (htext : Crlf none text.toList)
    (heol : h.lineEnding = .of text.toList) {made : String}
    (hmade : New.labelOrVisible.produce h = .ok made) :
    made.toList.head? ≠ some '\n' ∧
    (Crlf none made.toList ↔ '\n' ∈ text.toList ∧
      h.group "labelled" ≠ .ok "\n" ∧ h.group "visible" ≠ .ok "\n") := by
  obtain ⟨s, hs, hlist⟩ := produce_splitText hfinds.labelled hfinds.visible
  rw [hmade] at hs
  cases hs
  have hbounds := hfinds.stands.bounds
  have hfirst := hfinds.not_mem_indent (show '\n' ∉ "".toList by decide)
  have hinner :=
    hfinds.not_mem_indent (show '\n' ∉ innerIndent.toList by decide)
  rw [hlist]
  constructor
  · generalize ((h.group? "indent").getD "").toList = w at hfirst
    cases w with
    | nil =>
        intro heq
        cases heq
    | cons c w =>
        intro heq
        obtain rfl := Option.some.inj heq
        exact hfirst List.mem_cons_self
  · rw [crlf_splitText hfirst hinner,
      String.toList_ofList, String.toList_ofList,
      crlf_trimmed_iff htext (by omega) (by omega) (by decide), crlf_trimmed_iff
        htext (by omega) (by omega) (by decide), group_ne_iff hfinds.labelled,
      group_ne_iff hfinds.visible, heol, htext.lineEnding, and_left_comm]
    refine and_congr_left fun _ => ?_
    split
    · next hfeed => exact iff_of_true crlf_crlf hfeed
    · next hfeed =>
        exact iff_of_false
          (fun h => absurd (crlf_feed_iff.mp h) (by decide)) hfeed

/-- The last rule keeps line endings as long as the document has any and no
subject is a line feed alone. -/
theorem split_apply_crlf_iff (hr : labelOrVisible = .ok r)
    (hdocument : Crlf none document.toList)
    (happly : r.apply document = .ok edit) : Crlf none edit.text.toList ↔
      ∀ m ∈ r.pattern.allMatches document.toList.toArray, '\n' ∈
        document.toList ∧ (r.hit document m).group "labelled" ≠ .ok "\n" ∧
        (r.hit document m).group "visible" ≠ .ok "\n" := by
  obtain ⟨r', hr', -, hsplits, -⟩ := labelOrVisible_eq_ok
  cases hr.symm.trans hr'
  have heach : ∀ m ∈ r.pattern.allMatches document.toList.toArray, ∃ made,
      r.produce (r.hit document m) = .ok made ∧ made.toList.head? ≠ some '\n' ∧
      (Crlf none made.toList ↔ '\n' ∈ document.toList ∧
        (r.hit document m).group "labelled" ≠ .ok "\n" ∧
        (r.hit document m).group "visible" ≠ .ok "\n") := by
    intro m hm
    obtain ⟨q, start, a, b, a', b', hfinds⟩ := finds_of_mem hr hm
    obtain ⟨made, hmade, -⟩ := hfinds.splitsMatch
    exact ⟨made, by rw [hsplits.produce]; exact hmade,
      hfinds.crlf_iff hdocument rfl hmade⟩
  have hends := endings_checked.1 Old.labelOrVisible (by simp)
  rw [Rule.apply_crlf hsplits.denotes hends hdocument happly
    fun m hm s hs => ?_]
  · refine forall₂_congr fun m hm => ?_
    obtain ⟨made, hmade, -, hiff⟩ := heach m hm
    rw [← hiff, hmade]
    exact ⟨fun h => h made rfl, fun h s hs => by cases hs; exact h⟩
  · obtain ⟨made, hmade, hhead, -⟩ := heach m hm
    cases hmade.symm.trans hs
    exact hhead

end

/-- Which documents with Windows line endings keep them. The first four rules
keep them in all; the last one keeps them unless it splits something in a text
without a line feed, or something whose subject is captured as a line feed
alone. -/
theorem pass_crlf_iff (document : String) (hfeed : '\n' ∈ document.toList)
    (hdocument : Crlf none document.toList) : ∃ r₁ r₂ r₃ r₄ r₅ between migrated,
    Migration.rules = .ok [r₁, r₂, r₃, r₄, r₅] ∧
    (Rules.run [r₁, r₂, r₃, r₄] document).2 = .ok between ∧
    Crlf none between.toList ∧
    (Rules.run [r₁, r₂, r₃, r₄, r₅] document).2 = .ok migrated ∧
    (Crlf none migrated.toList ↔
      ∀ m ∈ r₅.pattern.allMatches between.toList.toArray,
        '\n' ∈ between.toList ∧ (r₅.hit between m).group "labelled" ≠ .ok "\n" ∧
        (r₅.hit between m).group "visible" ≠ .ok "\n") := by
  obtain ⟨r₁, r₂, r₃, r₄, r₅, hrules, -, hset⟩ := rules_eq_ok
  obtain ⟨hends, hdry₂, hdry₃, hdry₄, -⟩ := endings_checked
  obtain ⟨e₁, h₁⟩ := hset.threeImports.apply_eq_ok document
  obtain ⟨e₂, h₂⟩ := hset.twoImports.apply_eq_ok e₁.text
  obtain ⟨e₃, h₃⟩ := hset.oneUser.apply_eq_ok e₂.text
  obtain ⟨e₄, h₄⟩ := hset.twoUsers.apply_eq_ok e₃.text
  obtain ⟨e₅, h₅⟩ := split_apply_eq_ok hset.labelOrVisible e₄.text
  have hc₁ :=
    threeImports_apply_crlf hset.threeImports.toMade hdocument hfeed h₁
  have hc₂ := hset.twoImports.apply_crlf hdry₂ (hends _ (by simp)) hc₁ h₂
  have hc₃ := hset.oneUser.apply_crlf hdry₃ (hends _ (by simp)) hc₂ h₃
  have hc₄ := hset.twoUsers.apply_crlf hdry₄ (hends _ (by simp)) hc₃ h₄
  refine ⟨r₁, r₂, r₃, r₄, r₅, e₄.text, e₅.text, hrules, ?_, hc₄, ?_,
    split_apply_crlf_iff (labelOrVisible_of_rules hrules) hc₄ h₅⟩
  · rw [Rules.run_cons h₁, Rules.run_cons h₂, Rules.run_cons h₃,
      Rules.run_cons h₄, Rules.run]
  · rw [Rules.run_cons h₁, Rules.run_cons h₂, Rules.run_cons h₃,
      Rules.run_cons h₄, Rules.run_cons h₅, Rules.run]

theorem inLine_crlf : '\n' ∈ inLine.toList ∧ Crlf none inLine.toList := by
  obtain ⟨-, -, -, -, -, hcut, hfeed⟩ := inLine_checked
  rw [hcut]
  exact ⟨by simp, crlf_append.mpr ⟨crlf_of_not_mem hfeed, crlf_crlf⟩⟩

theorem settled_inLine : Settled inLine := by
  obtain ⟨-, -, -, -, hnone, -⟩ := inLine_checked
  have hwithout := fun s hs => without_of_allTaken (hnone s hs).1 (hnone s hs).2
  exact ⟨hwithout _ (by simp), hwithout _ (by simp), hwithout _ (by simp)⟩

/-- The last rule splits an assertion, and ends the lines that it makes as the
document does. -/
theorem pass_crlf_iff_inLine : '\n' ∈ inLine.toList ∧ Crlf none inLine.toList ∧
    ∃ rs, Migration.rules = .ok rs ∧
      (Rules.run rs inLine).2 = .ok (String.ofList splitInLine) ∧
      Crlf none splitInLine := by
  obtain ⟨hfeed, hends⟩ := inLine_crlf
  obtain ⟨r₁, r₂, r₃, r₄, r₅, between, migrated, hrules, hbetween, -,
      hmigrated, hiff⟩ :=
    pass_crlf_iff inLine hfeed hends
  obtain ⟨s₁, s₂, s₃, s₄, s₅, hrules', -, hset⟩ := rules_eq_ok
  cases hrules.symm.trans hrules'
  have hidle : Rules.run ([r₁, r₂, r₃, r₄] ++ []) inLine = ([], .ok inLine) :=
    Rules.run_append fun r hr => (hset.finds_nothing settled_inLine r hr).2
  obtain rfl : inLine = between :=
    Except.ok.inj ((congrArg Prod.snd hidle).symm.trans hbetween)
  obtain rfl : String.ofList splitInLine = migrated := Except.ok.inj
    ((hset.run_of_settled settled_inLine
      (apply_inLine hset.labelOrVisible)).symm.trans hmigrated)
  rw [String.toList_ofList] at hiff
  refine ⟨hfeed, hends, _, hrules, hmigrated, hiff.mpr ?_⟩
  obtain ⟨htaken, -, hplain, hplain', -⟩ := inLine_checked
  obtain ⟨m, hone, hlabelled, hvisible, -⟩ :=
    apply_of_taken hset.labelOrVisible htaken
  rw [(allMatches_iff hset.labelOrVisible.denotes.whole).mp hone,
    List.forall_mem_singleton]
  exact ⟨hfeed, (group_ne_iff hlabelled).mpr hplain,
    (group_ne_iff hvisible).mpr hplain'⟩

/-- What remains behind the imports in the two texts below. -/
def assertionAfterImports : String :=
  " await expect(a).toHaveAttribute('aria-label').or(expect(b).toBeVisible())"

/-- An assertion behind two imports, with the only line end between these. -/
def inOneLine : String :=
  Code.faker ++ "\r\n" ++ Code.prisma ++ assertionAfterImports

/-- What is left of it when the imports are replaced. -/
def withHelpers : String :=
  Code.helpers ++ assertionAfterImports

theorem inOneLine_chars :
    inOneLine.toList = Code.faker.toList ++ (['\r', '\n'] ++
    (Code.prisma.toList ++ assertionAfterImports.toList)) := by
  simp only [inOneLine, String.toList_append, List.append_assoc]
  rfl

theorem withHelpers_chars :
    withHelpers.toList = Code.helpers.toList ++
      assertionAfterImports.toList := by
  simp only [withHelpers, String.toList_append]

/-- What an evaluation says of the two texts: the first one holds the imports,
the second one the assertion, and there is no other line end in them. -/
theorem inOneLine_checked :
    (∀ s ∈ [Old.threeImports, Old.oneUser, Old.twoUsers],
      (meaning s).solid = true) ∧
    (meaning Old.threeImports).allTaken 0 none inOneLine.toList = [] ∧
    (meaning Old.twoImports).closed = true ∧
    (meaning Old.twoImports).solid = true ∧
    (meaning Old.twoImports).allTaken 0 none inOneLine.toList = [(0, 89, [])] ∧
    slice inOneLine.toList.toArray 89 inOneLine.toList.toArray.size =
      assertionAfterImports.toList ∧
    (∀ s ∈ [Old.oneUser, Old.twoUsers],
      (meaning s).allTaken 0 none withHelpers.toList = []) ∧
    assertion.allTaken 0 none withHelpers.toList ≠ [] ∧
    '\n' ∉ Code.faker.toList ∧ '\n' ∉ Code.prisma.toList ∧
    '\n' ∉ Code.helpers.toList ∧ '\n' ∉ assertionAfterImports.toList := by
  rw [inOneLine_chars, withHelpers_chars]
  decide +kernel

theorem inOneLine_crlf :
    Crlf none inOneLine.toList ∧ Crlf none withHelpers.toList ∧
    '\n' ∈ inOneLine.toList ∧ '\n' ∉ withHelpers.toList := by
  obtain ⟨-, -, -, -, -, -, -, -, hfaker, hprisma, hhelpers, hassertion⟩ :=
    inOneLine_checked
  rw [inOneLine_chars, withHelpers_chars]
  have hrest : '\n' ∉ Code.prisma.toList ++ assertionAfterImports.toList := by
    rw [List.mem_append, not_or]
    exact ⟨hprisma, hassertion⟩
  have hleft : '\n' ∉ Code.helpers.toList ++ assertionAfterImports.toList := by
    rw [List.mem_append, not_or]
    exact ⟨hhelpers, hassertion⟩
  have hends : '\n' ∈ ['\r', '\n'] := by decide
  exact ⟨crlf_append.mpr ⟨crlf_of_not_mem hfaker, crlf_append.mpr
        ⟨crlf_crlf, crlf_of_not_mem hrest⟩⟩, crlf_of_not_mem hleft,
    List.mem_append_right _ (List.mem_append_left _ hends), hleft⟩

theorem takes_of_allTaken {x : Regex} {text : String} (hsolid : x.solid = true)
    (hsome : x.allTaken 0 none text.toList ≠ []) :
    ∃ i j l, Takes text.toList.toArray x i j l := by
  obtain ⟨⟨i, j, l⟩, hmem⟩ := List.exists_mem_of_ne_nil _ hsome
  exact ⟨i, j, l, (mem_allTaken_iff hsolid).mp hmem⟩

/-- The line end of the imports is gone when the last rule looks how the
document ends a line. -/
theorem pass_breaks_crlf : ∃ rs migrated, Migration.rules = .ok rs ∧
    (Rules.run rs inOneLine).2 = .ok migrated ∧ '\n' ∈ inOneLine.toList ∧
    Crlf none inOneLine.toList ∧ ¬ Crlf none migrated.toList := by
  obtain ⟨r₁, r₂, r₃, r₄, r₅, hrules, -, hset⟩ := rules_eq_ok
  obtain ⟨hsolid, hthree, hclosed, hsolid₂, htwo, hrest, husers, hassertion,
    -⟩ := inOneLine_checked
  obtain ⟨hcrlf, hcrlf', hfeed, hfeed'⟩ := inOneLine_crlf
  have h₁ : r₁.apply inOneLine = .ok ⟨inOneLine, 0⟩ :=
    Rule.apply_eq_self hset.threeImports.denotes
      (without_of_allTaken (hsolid _ (by simp)) hthree)
  have h₂ : r₂.apply inOneLine = .ok ⟨withHelpers, 1⟩ := by
    obtain ⟨s, hs, hmade⟩ := produce_twoImports (r₂.hit inOneLine _)
    have honce := Rule.apply_once hset.twoImports.denotes hclosed hsolid₂ htwo
      (by rw [hset.twoImports.produce]; exact hs)
    rw [honce, hrest, slice_self, hmade, List.nil_append, ← withHelpers_chars,
      String.ofList_toList]
  have h₃ : r₃.apply withHelpers = .ok ⟨withHelpers, 0⟩ :=
    Rule.apply_eq_self hset.oneUser.denotes
      (without_of_allTaken (hsolid _ (by simp)) (husers _ (by simp)))
  have h₄ : r₄.apply withHelpers = .ok ⟨withHelpers, 0⟩ :=
    Rule.apply_eq_self hset.twoUsers.denotes
      (without_of_allTaken (hsolid _ (by simp)) (husers _ (by simp)))
  obtain ⟨edit, h₅⟩ := split_apply_eq_ok hset.labelOrVisible withHelpers
  refine ⟨_, edit.text, hrules, ?_, hfeed, hcrlf, fun hends => ?_⟩
  · rw [Rules.run_cons h₁, Rules.run_cons h₂, Rules.run_cons h₃,
      Rules.run_cons h₄, Rules.run_cons h₅, Rules.run]
  · obtain ⟨-, hclosed₅, hsolid₅, -⟩ := assertion_checked
    obtain ⟨i, j, l, htakes⟩ := takes_of_allTaken hsolid₅ hassertion
    have hocc : r₅.pattern.Occurrences withHelpers.toList.toArray _ :=
      (allMatches_iff hset.labelOrVisible.denotes.whole).mpr rfl
    obtain ⟨m, hm, -⟩ :=
      hset.labelOrVisible.denotes.covered hclosed₅ hocc htakes
    have hall :=
      (split_apply_crlf_iff (labelOrVisible_of_rules hrules) hcrlf' h₅).mp hends
    exact hfeed' (hall m hm).1

end Migration

end Codemod
