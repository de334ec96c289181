import Codemod.Proofs.Anatomy
import Codemod.Proofs.LineEndings
import Codemod.Proofs.Overlap
import Codemod.Proofs.Turns
import Mathlib.Data.Set.Card

/-!
# The two import rules as one scan

The first rule replaces three imports in a row, the second one what is left of
the first two of them. Both together are one scan over the document (`Scan`):
it goes from left to right, keeps a character where no pair of imports begins,
and where one begins it looks whether the third import follows.

The proof goes along the scan and tells at each step what the two rules do
there (`Scan.chain`). The first rule looks at the document itself. The second
one looks at what the first one made of it, and finds the same pairs there:
none begins in what the first rule put in, and none goes from a kept text into
it (`spells_of_turned`).
-/

namespace Codemod

open Pattern

/-! ## A template for one line ending -/

/-- The part with the line ending filled in. -/
def Part.ended (eol : String) : Part → Part
  | .lineEnding => .text eol
  | p => p

/-- The template with the line ending filled in. -/
def Template.ended (eol : String) (t : Template) :
    Template := t.map (Part.ended eol)

theorem Part.produce_ended (p : Part) (h : Hit) :
    (p.ended h.lineEnding.text).produce h = p.produce h := by
  cases p <;> rfl

theorem Template.produce_ended (t : Template) (h : Hit) :
    (t.ended h.lineEnding.text).produce h = t.produce h := by
  induction t with
  | nil => rfl
  | cons p ps ih =>
      rw [ended, List.map_cons, produce, produce, Part.produce_ended]
      rw [ended] at ih
      rw [ih]

theorem Template.lineEnding_not_mem_ended (eol : String) (t : Template) :
    .lineEnding ∉ t.ended eol := by
  intro hmem
  obtain ⟨p, -, hp⟩ := List.mem_map.mp hmem
  cases p <;> cases hp

namespace Rule

/-- The rule with another template. -/
def filling (r : Rule) (t : Template) : Rule := { r with produce := t.produce }

theorem apply_filling_ended {r : Rule} {t : Template}
    (h : r.produce = t.produce) (document : String) :
    (r.filling (t.ended (LineEnding.of document.toList).text)).apply document =
      r.apply document := by
  rw [apply_eq, apply_eq]
  show (splice _ (fun m => Template.produce (t.ended _) (r.hit document m))
    0 _).map _ = _
  have hsame : ∀ m, (t.ended (LineEnding.of document.toList).text).produce
      (r.hit document m) = r.produce (r.hit document m) := by
    intro m
    rw [h]
    exact t.produce_ended (r.hit document m)
  simp only [hsame]
  rfl

/-- The rule puts the same text everywhere. -/
def Puts (r : Rule) (made : List Char) : Prop :=
  ∀ h, ∃ s, r.produce h = .ok s ∧ s.toList = made

theorem Puts.makes {r : Rule} {made : List Char} (h : r.Puts made) (x : Regex) :
    r.Makes x (.ofText made) := by
  intro b a u l _
  obtain ⟨s, hs, rfl⟩ := h (r.hit (String.ofList u) (.whole u l))
  exact ⟨s, hs, fits_ofText _⟩

end Rule

namespace Migration

/-! ## What the rules look for and what they put in -/

/-- The tokens of the first two imports. -/
def pairTokens : List Token :=
  Token.ofTemplate Code.faker.toList ++ Token.ofTemplate Code.prisma.toList

/-- The tokens of all three imports. -/
def tripleTokens : List Token :=
  pairTokens ++ Token.ofTemplate Code.playwright.toList

/-- The two new imports. -/
def importLines (eol : List Char) : List Char :=
  Code.playwright.toList ++ (eol ++ Code.helpers.toList)

theorem produce_threeImports (h : Hit) :
    ∃ s, New.threeImports.produce h = .ok s ∧
    s.toList = importLines h.lineEnding.text.toList := by
  have hfilled : List.Forall₂ (fun part s => Part.produce h part = .ok s)
      New.threeImports _ :=
    .cons rfl (.cons rfl (.cons rfl .nil))
  obtain ⟨s, hs, hlist⟩ := Template.produce_eq_ok hfilled
  refine ⟨s, hs, ?_⟩
  rw [hlist, importLines]
  simp

theorem produce_twoImports (h : Hit) :
    ∃ s, New.twoImports.produce h = .ok s ∧ s.toList = Code.helpers.toList := by
  have hfilled : List.Forall₂ (fun part s => Part.produce h part = .ok s)
      New.twoImports _ :=
    .cons rfl .nil
  obtain ⟨s, hs, hlist⟩ := Template.produce_eq_ok hfilled
  refine ⟨s, hs, ?_⟩
  rw [hlist]
  simp

/-- What an evaluation says of the imports: no pair begins inside of three
imports, none begins in what the first rule puts in, and none goes into
that. -/
theorem importTokens_checked : pairTokens ≠ [] ∧
    (meaning Old.threeImports).outline.endsPlain = true ∧
    tailsApart steps (meaning Old.twoImports).outline
      (meaning Old.threeImports).outline = true ∧
    (∀ e ∈ [LineEnding.lf, .crlf], tailsApart steps (.ofText
      (importLines e.text.toList)) (meaning Old.twoImports).outline = true ∧
      endsApart steps [] (meaning Old.twoImports).outline
        (.ofText (importLines e.text.toList)) = true ∧
      (Outline.ofText (importLines e.text.toList)).endsPlain = true) := by
  decide +kernel

theorem made_checked (e : LineEnding) :
    tailsApart steps (.ofText (importLines e.text.toList))
      (meaning Old.twoImports).outline = true ∧
    endsApart steps [] (meaning Old.twoImports).outline
      (.ofText (importLines e.text.toList)) = true ∧
    (Outline.ofText (importLines e.text.toList)).endsPlain = true :=
  importTokens_checked.2.2.2 e (by cases e <;> simp)

theorem begun_pair : ∀ t ∈ pairTokens, t.Begun := by
  have hfaker : Token.Cuts Code.faker.toList _ := Token.cuts_iff.mpr rfl
  have hprisma : Token.Cuts Code.prisma.toList _ := Token.cuts_iff.mpr rfl
  exact fun t ht => (List.mem_append.mp ht).elim (hfaker.row.begun t)
    (hprisma.row.begun t)

theorem begun_triple : ∀ t ∈ tripleTokens, t.Begun := by
  have hplaywright : Token.Cuts Code.playwright.toList _ :=
    Token.cuts_iff.mpr rfl
  exact fun t ht => (List.mem_append.mp ht).elim (begun_pair t)
    (hplaywright.row.begun t)

section

variable {text : Array Char} {i j : Nat} {l : Marks}

theorem takes_pair :
    Takes text (meaning Old.twoImports) i j l ↔
    Written text pairTokens i j ∧ l = [] := by
  have hpieces : Old.twoImports.pieces = pairTokens.map .token := by
    rw [pairTokens, List.map_append]
    rfl
  rw [meaning, hpieces]
  exact takes_tokens importTokens_checked.1 fun t ht => (begun_pair t ht).sound

theorem takes_triple :
    Takes text (meaning Old.threeImports) i j l ↔
    Written text tripleTokens i j ∧ l = [] := by
  have hpieces : Old.threeImports.pieces = tripleTokens.map .token := by
    rw [tripleTokens, pairTokens, List.map_append, List.map_append]
    rfl
  have hne : tripleTokens ≠ [] :=
    fun h => importTokens_checked.1 (List.append_eq_nil_iff.mp h).1
  rw [meaning, hpieces]
  exact takes_tokens hne fun t ht => (begun_triple t ht).sound

theorem pair_of_triple (h : Written text tripleTokens i j) :
    ∃ k, Written text pairTokens i k :=
  Written.front h importTokens_checked.1

end

/-! ## The scan -/

/-- One scan over a text from a place on: what it makes of the rest of the
text, and how many pairs of imports it replaces there. -/
inductive Scan (text : Array Char) (eol : List Char) :
    Nat → List Char → Nat → Prop where
  | done : Scan text eol text.size [] 0
  | keep {i : Nat} {c : Char} {w : List Char} {n : Nat} (hc : text[i]? = some c)
      (hno : ∀ j, ¬ Written text pairTokens i j)
        (h : Scan text eol (i + 1) w n) :
      Scan text eol i (c :: w) n
  | three {i j : Nat} {w : List Char} {n : Nat}
      (ht : Written text tripleTokens i j)
      (h : Scan text eol j w n) : Scan text eol i (importLines eol ++ w) (n + 1)
  | two {i j : Nat} {w : List Char} {n : Nat} (ht : Written text pairTokens i j)
      (hno : ∀ k, ¬ Written text tripleTokens i k) (h : Scan text eol j w n) :
      Scan text eol i (Code.helpers.toList ++ w) (n + 1)

section

variable {text : Array Char} {eol w : List Char} {i j n : Nat}

theorem exists_scan (eol : List Char) (hi : i ≤ text.size) :
    ∃ w n, Scan text eol i w n := by
  induction hd : text.size - i using Nat.strong_induction_on generalizing i with
  | h d ih =>
      have hnext : ∀ {j}, i < j → j ≤ text.size → ∃ w n, Scan text eol j w n :=
        fun hij hj => ih _ (by omega) hj rfl
      rcases Nat.eq_or_lt_of_le hi with rfl | hlt
      · exact ⟨[], 0, .done⟩
      by_cases hthree : ∃ j, Written text tripleTokens i j
      · obtain ⟨j, ht⟩ := hthree
        obtain ⟨w, n, h⟩ := hnext (ht.lt begun_triple) ht.bounds.2
        exact ⟨_, _, .three ht h⟩
      by_cases htwo : ∃ j, Written text pairTokens i j
      · obtain ⟨j, ht⟩ := htwo
        obtain ⟨w, n, h⟩ := hnext (ht.lt begun_pair) ht.bounds.2
        exact ⟨_, _, .two ht (not_exists.mp hthree) h⟩
      · obtain ⟨w, n, h⟩ := hnext (Nat.lt_succ_self i) hlt
        exact ⟨_, _,
          .keep (Array.getElem?_eq_getElem hlt) (not_exists.mp htwo) h⟩

/-- Behind a pair the next one begins where the scan goes on, at the
earliest. -/
theorem encard_pair {k : Nat}
    (hpair : Written text pairTokens i k) (hij : i < j)
    (hinside : ∀ p q, i < p → p < j → ¬ Written text pairTokens p q)
    (h : {p : Nat × Nat | j ≤ p.1 ∧ Written text pairTokens p.1 p.2}.encard =
      n) :
    {p : Nat × Nat | i ≤ p.1 ∧ Written text pairTokens p.1 p.2}.encard =
      ↑(n + 1) := by
  have hset : {p : Nat × Nat | i ≤ p.1 ∧ Written text pairTokens p.1 p.2} =
      insert (i, k) {p : Nat × Nat | j ≤ p.1 ∧
        Written text pairTokens p.1 p.2} := by
    ext ⟨p, q⟩
    rw [Set.mem_insert_iff, Set.mem_ofPred_eq, Set.mem_ofPred_eq, Prod.mk.injEq]
    constructor
    · rintro ⟨hip, hw⟩
      rcases Nat.eq_or_lt_of_le hip with rfl | hlt
      · exact .inl ⟨rfl, hw.stop_unique begun_pair hpair⟩
      · exact .inr ⟨Nat.le_of_not_lt fun hpj => hinside p q hlt hpj hw, hw⟩
    · rintro (⟨rfl, rfl⟩ | ⟨hjp, hw⟩)
      · exact ⟨Nat.le_refl _, hpair⟩
      · exact ⟨by omega, hw⟩
  have hnew :
      (i, k) ∉ {p : Nat × Nat | j ≤ p.1 ∧ Written text pairTokens p.1 p.2} :=
    fun hmem => absurd hmem.1 (Nat.not_le_of_lt hij)
  rw [hset, Set.encard_insert_of_notMem hnew, h]
  rfl

/-- The scan replaces all pairs there are. -/
theorem Scan.encard (h : Scan text eol i w n) :
    {p : Nat × Nat | i ≤ p.1 ∧ Written text pairTokens p.1 p.2}.encard = n := by
  obtain ⟨-, -, hthree, -⟩ := importTokens_checked
  obtain ⟨-, -, -, htwo⟩ := imports_checked
  induction h with
  | done =>
      have hnone : {p : Nat × Nat | text.size ≤ p.1 ∧
          Written text pairTokens p.1 p.2} = ∅ := by
        refine Set.eq_empty_iff_forall_notMem.mpr fun p hp => ?_
        have hlt := hp.2.lt begun_pair
        have hsize := hp.2.bounds.2
        have hle := hp.1
        omega
      rw [hnone, Set.encard_empty]
      rfl
  | @keep i c w n hc hno _ ih =>
      have hsame : {p : Nat × Nat | i ≤ p.1 ∧ Written text pairTokens p.1 p.2} =
          {p : Nat × Nat | i + 1 ≤ p.1 ∧ Written text pairTokens p.1 p.2} := by
        ext ⟨p, q⟩
        refine and_congr_left fun hw =>
          ⟨fun hip => Nat.lt_of_le_of_ne hip ?_, Nat.le_of_succ_le⟩
        rintro rfl
        exact hno q hw
      rw [hsame, ih]
  | three ht _ ih =>
      obtain ⟨k, hpair⟩ := pair_of_triple ht
      refine encard_pair hpair (ht.lt begun_triple)
        (fun p q hip hpj hw => ?_) ih
      exact not_takes_inside hthree (takes_triple.mpr ⟨ht, rfl⟩)
        (takes_pair.mpr ⟨hw, rfl⟩) hip hpj
  | two ht _ _ ih =>
      refine encard_pair ht (ht.lt begun_pair) (fun p q hip hpj hw => ?_) ih
      exact not_takes_inside htwo (takes_pair.mpr ⟨ht, rfl⟩)
        (takes_pair.mpr ⟨hw, rfl⟩) hip hpj

end

/-! ## The two rules along the scan -/

/-- The first rule makes a text of what comes from the place on, and the second
one makes `w` of that. Both together make `n` replacements. -/
def Chain (r₁ r₂ : Rule) (text : Array Char) (i : Nat) (w : List Char)
    (n : Nat) : Prop :=
  ∃ v k m, n = k + m ∧ Rule.Turns r₁ (meaning Old.threeImports)
      (before? text i) (slice text i text.size) v k ∧
    Rule.Turns r₂ (meaning Old.twoImports) (before? text i) v w m

section

variable {r₁ r₂ : Rule} {text : Array Char} {e : LineEnding}
  {w : List Char} {i j n : Nat}

/-- A pair that the second rule finds where the first one has kept a character
was there before. -/
theorem Chain.keep (h₁ : r₁.Local (meaning Old.threeImports))
    (h₂ : r₂.Local (meaning Old.twoImports))
    (hputs : r₁.Puts (importLines e.text.toList)) {c : Char}
    (hc : text[i]? = some c) (hno : ∀ j, ¬ Written text pairTokens i j)
    (h : Chain r₁ r₂ text (i + 1) w n) :
    Chain r₁ r₂ text i (c :: w) n := by
  obtain ⟨hinto, -⟩ := made_checked e
  obtain ⟨v, k, m, rfl, hv, hw⟩ := h
  have hlt : i < text.size := (Array.getElem?_eq_some_iff.mp hc).1
  refine ⟨c :: v, k, m, rfl, ?_, ?_⟩
  · have hskip :=
      h₁.turns_skip (Nat.le_succ i) hlt (fun q j l hiq hqi ht => ?_) hv
    · rw [slice_succ hc] at hskip
      exact hskip
    · obtain rfl : q = i := by omega
      obtain ⟨j', hpair⟩ := pair_of_triple (takes_triple.mp ht).1
      exact hno j' hpair
  · rw [show before? text (i + 1) = some c from hc] at hw
    refine .keep (fun u s l heq hu => ?_) hw
    have hrest : [c] ++ slice text (i + 1) text.size =
        slice text i text.size := by
      rw [← slice_succ hc, slice_append (Nat.le_succ i) hlt]
    have hne : [c] ≠ [] := List.cons_ne_nil c []
    obtain ⟨s', hs'⟩ :=
      Rule.spells_of_turned (hputs.makes _) hinto hv hne heq hu
    rw [hrest] at hs'
    obtain ⟨l', ht⟩ :=
      takes_of_spells h₂.worded (Nat.le_of_lt hlt) hs' (hu.closed h₂.closed _).2
    exact hno _ (takes_pair.mp ht).1

/-- The second rule finds nothing in what the first one has put in. -/
theorem Chain.three (h₁ : r₁.Local (meaning Old.threeImports))
    (h₂ : r₂.Local (meaning Old.twoImports))
    (hputs : r₁.Puts (importLines e.text.toList))
    (ht : Written text tripleTokens i j) (h : Chain r₁ r₂ text j w n) :
    Chain r₁ r₂ text i (importLines e.text.toList ++ w) (n + 1) := by
  obtain ⟨-, hwithin, hends⟩ := made_checked e
  obtain ⟨v, k, m, rfl, hv, hw⟩ := h
  have htakes := takes_triple.mpr ⟨ht, rfl⟩
  obtain ⟨l, -, -, hspells⟩ := h₁.spells_alone htakes
  obtain ⟨s, hs, hmade⟩ :=
    hputs (r₁.hit (String.ofList (slice text i j)) (.whole (slice text i j) l))
  refine ⟨importLines e.text.toList ++ v, k + 1, m, by omega, ?_, ?_⟩
  · rw [← slice_append htakes.le htakes.le_size, ← hmade]
    rw [← getLast?_slice_or htakes.le htakes.le_size] at hv
    exact .swap (by rw [head?_slice_size htakes.le_size]; exact hspells) hs hv
  · exact h₂.turns_over hwithin hends (fits_ofText _)
      (Takes.beforePlain htakes importTokens_checked.2.1) hw

/-- The first rule leaves a pair alone, since three imports that began inside
of it would begin with another pair. -/
theorem Chain.two (h₁ : r₁.Local (meaning Old.threeImports))
    (h₂ : r₂.Local (meaning Old.twoImports))
    (hputs : r₂.Puts Code.helpers.toList) (ht : Written text pairTokens i j)
    (hno : ∀ k, ¬ Written text tripleTokens i k) (h : Chain r₁ r₂ text j w n) :
    Chain r₁ r₂ text i (Code.helpers.toList ++ w) (n + 1) := by
  obtain ⟨v, k, m, rfl, hv, hw⟩ := h
  have htakes := takes_pair.mpr ⟨ht, rfl⟩
  obtain ⟨l, -, -, hspells⟩ := h₂.spells_alone htakes
  obtain ⟨s, hs, hmade⟩ :=
    hputs (r₂.hit (String.ofList (slice text i j)) (.whole (slice text i j) l))
  refine ⟨slice text i j ++ v, k, m + 1, by omega, ?_, ?_⟩
  · refine h₁.turns_skip htakes.le htakes.le_size
      (fun q j' l hiq hqj hq => ?_) hv
    have htriple := (takes_triple.mp hq).1
    rcases Nat.eq_or_lt_of_le hiq with rfl | hlt
    · exact hno j' htriple
    · obtain ⟨k', hpair⟩ := pair_of_triple htriple
      exact not_takes_inside imports_checked.2.2.2 htakes
        (takes_pair.mpr ⟨hpair, rfl⟩) hlt hqj
  · rw [← getLast?_slice_or htakes.le htakes.le_size] at hw
    rw [← hmade]
    exact .swap (hspells.closed h₂.closed _).2 hs hw

/-- What the two rules do is what the scan does. -/
theorem Scan.chain (h₁ : r₁.Local (meaning Old.threeImports))
    (h₂ : r₂.Local (meaning Old.twoImports))
    (hputs₁ : r₁.Puts (importLines e.text.toList))
    (hputs₂ : r₂.Puts Code.helpers.toList)
    (h : Scan text e.text.toList i w n) : Chain r₁ r₂ text i w n := by
  induction h with
  | done =>
      refine ⟨[], 0, 0, rfl, ?_, .done⟩
      rw [slice_self]
      exact .done
  | keep hc hno _ ih => exact ih.keep h₁ h₂ hputs₁ hc hno
  | three ht _ ih => exact ih.three h₁ h₂ hputs₁ ht
  | two ht hno _ ih => exact ih.two h₁ h₂ hputs₂ ht hno

/-- The first rule with the line ending of a document filled in. It puts in the
same text everywhere. -/
theorem local_threeImports
    (h : Careful r₁ Old.threeImports New.threeImports [] []) (e : LineEnding) :
    (r₁.filling (New.threeImports.ended e.text)).Local
      (meaning Old.threeImports) ∧
      (r₁.filling (New.threeImports.ended e.text)).Puts
        (importLines e.text.toList) := by
  obtain ⟨⟨hworded, hclosed⟩, -⟩ := tidy_iff.mp h.tidy
  refine ⟨⟨h.denotes, imports_checked.1, hworded, hclosed, _, [], rfl,
    Template.lineEnding_not_mem_ended _ _, h.names, ?_⟩, fun hit => ?_⟩
  · rfl
  · have hended := produce_threeImports { hit with lineEnding := e }
    rw [← Template.produce_ended] at hended
    exact hended

theorem local_twoImports {qs : List Shape}
    (h : Careful r₂ Old.twoImports New.twoImports [] qs) :
    r₂.Local (meaning Old.twoImports) ∧ r₂.Puts Code.helpers.toList := by
  refine ⟨h.isLocal imports_checked.2.1 (by decide), fun hit => ?_⟩
  rw [h.produce]
  exact produce_twoImports hit

end

/-- The two import rules are one scan over the document, and replace as many
parts as there are pairs of imports in it. -/
theorem import_rules_scan :
    ∃ r₁ r₂ r₃ r₄ r₅, Migration.rules = .ok [r₁, r₂, r₃, r₄, r₅] ∧
    r₁.name = "consolidate-imports" ∧ r₂.name = "consolidate-imports-fallback" ∧
    ∀ document : String, ∃ first second, r₁.apply document = .ok first ∧
      r₂.apply first.text = .ok second ∧
      (∀ w n, Scan document.toList.toArray
          (if ['\r', '\n'] <:+: document.toList then ['\r', '\n'] else ['\n'])
          0 w n ↔
        w = second.text.toList ∧
        n = first.replacements + second.replacements) ∧
      {p : Nat × Nat |
        Written document.toList.toArray pairTokens p.1 p.2}.encard =
        first.replacements + second.replacements := by
  obtain ⟨r₁, r₂, r₃, r₄, r₅, hrules, hnames, hset⟩ := rules_eq_ok
  simp only [List.map_cons, List.cons.injEq] at hnames
  refine ⟨r₁, r₂, r₃, r₄, r₅, hrules, hnames.1, hnames.2.1, fun document => ?_⟩
  obtain ⟨hlocal₁, hputs₁⟩ :=
    local_threeImports hset.threeImports (.of document.toList)
  obtain ⟨hlocal₂, hputs₂⟩ := local_twoImports hset.twoImports
  obtain ⟨first, hfirst⟩ := hlocal₁.exists_edit document
  obtain ⟨second, hsecond⟩ := hlocal₂.exists_edit first.text
  have hscan : ∀ w n, Scan document.toList.toArray
      (LineEnding.of document.toList).text.toList 0 w n →
      w = second.text.toList ∧
      n = first.replacements + second.replacements := by
    intro w n h
    obtain ⟨v, k, m, rfl, hv, hw⟩ := h.chain hlocal₁ hlocal₂ hputs₁ hputs₂
    rw [slice_zero_size] at hv
    obtain ⟨rfl, rfl⟩ := hlocal₁.turns_unique hv (hlocal₁.turns_of_apply hfirst)
    obtain ⟨rfl, rfl⟩ :=
      hlocal₂.turns_unique hw (hlocal₂.turns_of_apply hsecond)
    exact ⟨rfl, rfl⟩
  obtain ⟨w, n, h⟩ := exists_scan (LineEnding.of document.toList).text.toList
    (Nat.zero_le document.toList.toArray.size)
  obtain ⟨rfl, rfl⟩ := hscan w n h
  rw [Rule.apply_filling_ended hset.threeImports.produce] at hfirst
  refine ⟨first, second, hfirst, hsecond, fun w n => ?_, ?_⟩
  · rw [← lineEnding_text]
    refine ⟨hscan w n, ?_⟩
    rintro ⟨rfl, rfl⟩
    exact h
  · have hpairs := h.encard
    simp only [Nat.zero_le, true_and] at hpairs
    exact hpairs

end Migration

end Codemod
