import Codemod.Proofs.Enumerate
import Codemod.Proofs.MigrationRules

/-!
# Splitting an assertion

The last rule of the migration is unlike the others: it copies two subjects,
which are almost arbitrary text, into what it makes. What it makes is therefore
not known in outline as a whole, only between the copies. The copies were there
before, so what they hold is no news; what matters is what goes from the made
text into a copy or out of it. There it helps that a subject has parentheses
only one level deep, which is what `subject_split` says of its beginning.
-/

namespace Codemod.Migration

open Pattern

namespace Slot

/-- The outline of the beginning of a subject, up to the end of the first
parentheses. -/
def called : Outline := .run noParen.ranges :: callRegex.outline

/-- The text has no parentheses, or begins like a subject with some. -/
def Subject (w : List Char) : Prop :=
  (∀ c ∈ w, Covers noParen.ranges c) ∨ ∃ z t, w = z ++ t ∧ Fits called z

theorem Subject.append {u v : List Char}
    (hu : ∀ c ∈ u, Covers noParen.ranges c) (hv : Subject v) :
    Subject (u ++ v) := by
  rcases hv with hv | ⟨z, t, rfl, hz⟩
  · refine .inl fun c hc => ?_
    exact (List.mem_append.mp hc).elim (hu c) (hv c)
  · refine .inr ⟨u ++ z, t, (List.append_assoc _ _ _).symm, ?_⟩
    induction u with
    | nil => exact hz
    | cons c u ih =>
        exact .more (hu c List.mem_cons_self)
          (ih fun d hd => hu d (List.mem_cons_of_mem _ hd))

theorem subject_star {x : Regex} {i : Nat} {b a : Option Char}
    {w : List Char} {ms : Marks} (h : Spells x i b w a ms)
    (hx : x = .star true (.alt (.one noParen) callRegex)) :
    Subject w := by
  induction h with
  | stop => exact .inl fun c hc => absurd hc List.not_mem_nil
  | @round _ _ _ _ _ u v _ _ h _ _ ih =>
      cases hx
      rcases spells_alt.mp h with h | h
      · exact .append h.covers (ih rfl)
      · exact .inr ⟨u, v, rfl, .skip h.fits⟩
  | _ => cases hx

/-- What a subject begins with. -/
theorem subject_split {i : Nat} {b a : Option Char} {w : List Char} {ms : Marks}
    (h : Spells subjectRegex i b w a ms) : Subject w := by
  cases h with
  | plus h h' => exact subject_star (.round h h') rfl

end Slot

/-- What is put between the copies: the outlines of the text before the first
one, between the two, and behind the second one. -/
def headOutline : Outline :=
  .run Piece.blankSet.ranges ::
    Outline.ofText "const hasAriaLabel = await ".toList

@[inherit_doc headOutline]
def middleOutline : Outline :=
  Outline.ofText ".getAttribute('aria-label')".toList ++
    (lineEndingOutline ++ .run Piece.blankSet.ranges ::
      Outline.ofText "const hasLabel = await ".toList)

@[inherit_doc headOutline]
def footOutline : Outline :=
  Outline.ofText ".isVisible()".toList ++ (lineEndingOutline
    ++ .run Piece.blankSet.ranges
      :: Outline.ofText "expect(hasAriaLabel || hasLabel).toBeTruthy()".toList)

/-- A made text with a subject behind it, and then another made text of outline
`next`, stays apart from what has the outline `q`. -/
def copiesApart (q next o : Outline) : Bool :=
  o.endsPlain && tailsApart steps o q && endsApart steps Slot.called q o
    && endsApart steps (.run Slot.noParen.ranges :: next) q o

theorem apart_of_copy {q : Regex} {o next : Outline} {s w s' t : List Char}
    (h : copiesApart q.outline next o = true)
    (hs : Fits o s) (hw : Slot.Subject w)
    (hs' : Fits next s') : Apart q s (w ++ (s' ++ t)) := by
  rw [copiesApart, Bool.and_eq_true, Bool.and_eq_true, Bool.and_eq_true] at h
  obtain ⟨⟨⟨hends, hinto⟩, hcalled⟩, hplain⟩ := h
  have hne := (hs.endsPlain hends).1
  rcases hw with hw | ⟨z, t', rfl, hz⟩
  · have hboth : Fits (.run Slot.noParen.ranges :: next) (w ++ s') :=
      (fits_run hw).append hs'
    rw [← List.append_assoc]
    exact apart_of_outline hinto hplain hs hne hboth
  · rw [List.append_assoc]
    exact apart_of_outline hinto hcalled hs hne hz

/-- All that is made stays apart from what has the outline `q`. -/
def splitsApart (q : Outline) : Bool :=
  copiesApart q middleOutline headOutline &&
    copiesApart q footOutline middleOutline && footOutline.endsPlain &&
    tailsApart steps footOutline q && endsApart steps [] q footOutline

/-- Made text with two subjects that were free is a patch. -/
theorem patch_of_copies {q : Regex} (hq : splitsApart q.outline = true)
    {s u s' v s'' : List Char}
    (hs : Fits headOutline s) (hs' : Fits middleOutline s')
    (hs'' : Fits footOutline s'') (hu : Slot.Subject u) (hv : Slot.Subject v)
    (hfree : ∀ b, Anchor.isWord? b = false → Free q b u ∧ Free q b v) :
    Patch q (s ++ (u ++ (s' ++ (v ++ s'')))) := by
  simp only [splitsApart, Bool.and_eq_true] at hq
  obtain ⟨⟨⟨⟨hhead, hmiddle⟩, hends⟩, hinto⟩, hwithin⟩ := hq
  obtain ⟨hne, hword⟩ := hs''.endsPlain hends
  have hplain : ∀ {o next : Outline} {w : List Char},
      copiesApart q.outline next o = true →
      Fits o w → Anchor.isWord? w.getLast? = false := by
    intro o next w h hw
    rw [copiesApart, Bool.and_eq_true, Bool.and_eq_true, Bool.and_eq_true] at h
    exact (hw.endsPlain h.1.1.1).2
  have hlast : (s ++ (u ++ (s' ++ (v ++ s'')))).getLast? = s''.getLast? := by
    obtain ⟨c, hc⟩ := Option.isSome_iff_exists.mp (List.getLast?_isSome.mpr hne)
    simp only [List.getLast?_append, hc, Option.some_or]
  refine ⟨by rw [hlast]; exact hword, ?_⟩
  intro b k t hk ht
  rw [hlast] at ht
  have hfoot : Sealed q s'.getLast? (v ++ s'' ++ t) :=
    .cut (hfree _ (hplain hmiddle hs')).2
      (apart_of_outline hinto hwithin hs'' hne .nil) ht
  have hmid : Sealed q s.getLast? (u ++ s' ++ (v ++ s'' ++ t)) := by
    refine .cut (hfree _ (hplain hhead hs)).1 ?_ hfoot
    rw [List.append_assoc]
    exact apart_of_copy hmiddle hs' hv hs''
  have hall : Sealed q b (k ++ s ++ (u ++ s' ++ (v ++ s'' ++ t))) := by
    refine .cut hk ?_ hmid
    rw [List.append_assoc]
    exact apart_of_copy hhead hs hu hs'
  have heq : k ++ (s ++ (u ++ (s' ++ (v ++ s'')))) ++ t =
      k ++ s ++ (u ++ s' ++ (v ++ s'' ++ t)) := by
    simp only [List.append_assoc]
  rw [heq]
  exact hall

/-! ## What a match of the rule consists of -/

/-- The expression of the assertion. -/
def assertion : Regex := meaning Old.labelOrVisible

/-- The expression of the assertion around its two subjects. -/
def aroundSubjects : Option (Regex × Regex × Regex) := do
  let x ← assertion.part? 2
  let y ← x.back.part? 3
  if x.body = Slot.subjectRegex ∧ y.body = Slot.subjectRegex then
    return (x.front, y.front, y.back)
  else
    none

/-- The stroke is the character and no other one. -/
def isJust (d : Char) : Stroke → Bool
  | .one [(lo, hi)] => lo == d.toNat && hi == d.toNat
  | _ => false

theorem eq_of_isJust {d : Char} {rs : Text.Ranges} {c : Char}
    (h : isJust d (.one rs) = true) (hc : Covers rs c) : c = d := by
  rw [isJust.eq_def] at h
  split at h
  · next lo hi heq =>
      cases heq
      obtain ⟨r, hr, hle⟩ := hc
      rw [List.mem_singleton.mp hr] at hle
      rw [Bool.and_eq_true, beq_iff_eq, beq_iff_eq] at h
      refine Char.toNat_inj.mp ?_
      omega
  · cases h

/-- How often a text of the outline has the character at least. -/
def sure (d : Char) (o : Outline) : Nat := o.countP (isJust d)

theorem sure_le_count {d : Char} {o : Outline} {w : List Char} (h : Fits o w) :
    sure d o ≤ w.count d := by
  induction h with
  | nil => exact Nat.le_refl 0
  | @one rs o c w hc _ ih =>
      rw [sure, List.countP_cons, List.count_cons]
      refine Nat.add_le_add ih ?_
      split
      · next hjust =>
          simp [eq_of_isJust hjust hc]
      · exact Nat.zero_le _
  | skip _ ih =>
      rw [sure, List.countP_cons]
      exact ih
  | more _ _ ih =>
      rw [List.count_cons]
      omega

/-- What an evaluation says of the assertion: as a whole, of what comes behind
its indentation, and of the text around its subjects. -/
theorem assertion_checked :
    assertion.outline.endsPlain = true ∧ assertion.closed = true ∧
    assertion.solid = true ∧ Old.labelOrVisible.pieces.tail ≠ [] ∧
    (Shape.regex slots 2 Old.labelOrVisible.pieces.tail).mentions 1 = false ∧
    (match aroundSubjects with
      | some (f, m, b) => f.outline.endsPlain && m.outline.endsPlain &&
          decide (5 ≤ sure '(' f.outline + sure '(' m.outline +
            sure '(' b.outline)
      | none => false) = true := by
  decide +kernel

/-- The subjects are parted, and what stands before them does not end with a
word character; the text around them has five opening parentheses. -/
theorem around_subjects : ∃ f m b, aroundSubjects = some (f, m, b) ∧
    f.outline.endsPlain = true ∧ m.outline.endsPlain = true ∧
    5 ≤ sure '(' f.outline + sure '(' m.outline + sure '(' b.outline := by
  obtain ⟨-, -, -, -, -, hfacts⟩ := assertion_checked
  split at hfacts
  · next f m b heq =>
      rw [Bool.and_eq_true, Bool.and_eq_true, decide_eq_true_eq] at hfacts
      exact ⟨f, m, b, heq, hfacts.1.1, hfacts.1.2, hfacts.2⟩
  · cases hfacts

/-- A match of the assertion, taken apart at its subjects. -/
structure Assertion (text : Array Char) (i j : Nat)
    (ms : Marks) (p k p' k' : Nat) : Prop where
  labelled : ∃ l, Takes text Slot.subjectRegex p k l
  visible : ∃ l, Takes text Slot.subjectRegex p' k' l
  plain : Anchor.isWord? (before? text p) = false
  plain' : Anchor.isWord? (before? text p') = false
  marked : Marked 2 p k ms
  marked' : Marked 3 p' k' ms
  count : (slice text p k).count '(' + (slice text p' k').count '(' + 5 ≤
    (slice text i j).count '('

theorem Takes.beforePlain {text : Array Char} {x : Regex} {i j : Nat}
    {ms : Marks} (h : Takes text x i j ms) (hx : x.outline.endsPlain = true) :
    Anchor.isWord? (before? text j) = false := by
  rw [← getLast?_slice_or h.le h.le_size]
  exact h.spells.fits.lastPlain hx _

theorem takes_assertion {text : Array Char} {i j : Nat} {ms : Marks}
    (h : Takes text assertion i j ms) :
    ∃ p k p' k', Assertion text i j ms p k p' k' := by
  obtain ⟨f, m, b, heq, hf, hm, hsure⟩ := around_subjects
  rw [aroundSubjects] at heq
  obtain ⟨x, hx, heq⟩ := Option.bind_eq_some_iff.mp heq
  obtain ⟨y, hy, heq⟩ := Option.bind_eq_some_iff.mp heq
  split at heq
  · next hbody =>
      cases heq
      obtain ⟨p, k, l₁, l₂, l₃, hfront, hsubject, hback, hmarked, l, rfl⟩ :=
        h.part hx
      obtain ⟨p', k', l₄, l₅, l₆, hmiddle, hsubject', hfoot, hmarked', -⟩ :=
        hback.part hy
      rw [hbody.1] at hsubject
      rw [hbody.2] at hsubject'
      refine ⟨p, k, p', k', ⟨l₂, hsubject⟩,
        ⟨l₅, hsubject'⟩, Takes.beforePlain hfront hf,
        Takes.beforePlain hmiddle hm, hmarked, hmarked'.append_left l, ?_⟩
      have hcut : slice text i j = slice text i p ++ (slice text p k ++
          (slice text k p' ++ (slice text p' k' ++ slice text k' j))) := by
        have h₁ := hfront.le
        have h₂ := hsubject.le
        have h₃ := hmiddle.le
        have h₄ := hsubject'.le
        have h₅ := hfoot.le
        rw [slice_append h₄ h₅, slice_append h₃ (by omega),
          slice_append h₂ (by omega), slice_append h₁ (by omega)]
      have h₁ := sure_le_count (d := '(') hfront.spells.fits
      have h₂ := sure_le_count (d := '(') hmiddle.spells.fits
      have h₃ := sure_le_count (d := '(') hfoot.spells.fits
      rw [hcut]
      simp only [List.count_append]
      omega
  · cases heq

/-- The indentation of an assertion, if it starts its line, is made of
blanks. -/
theorem takes_indent {text : Array Char} {i j : Nat} {ms : Marks}
    (h : Takes text assertion i j ms) :
    (∀ x ∈ ms, x.1 / 2 ≠ 1) ∨ ∃ k, Marked 1 i k ms ∧
      ∀ c ∈ slice text i k, Covers Piece.blankSet.ranges c := by
  obtain ⟨-, -, -, htail, hmentions, -⟩ := assertion_checked
  have hshape : assertion = .seq (.alt (.seq (.look .lineStart)
      (.group 1 (.star true (.one Piece.blankSet)))) .empty)
      (.seq .empty (Shape.regex slots 2 Old.labelOrVisible.pieces.tail)) := by
    have hpieces : Old.labelOrVisible.pieces =
        .indent "indent".toList :: Old.labelOrVisible.pieces.tail := rfl
    rw [assertion, meaning, hpieces]
    generalize Old.labelOrVisible.pieces.tail = ps at htail
    cases ps with
    | nil => exact absurd rfl htail
    | cons q ps => rfl
  rw [hshape] at h
  obtain ⟨k, ms, ns, hindent, hrest, rfl⟩ := takes_seq.mp h
  have hns : ∀ x ∈ ns, x.1 / 2 ≠ 1 := hrest.spells.marks_of_not_mentions (by
    rw [Regex.mentions, hmentions]
    rfl)
  rcases spells_alt.mp hindent.spells with hsome | hnone
  · obtain ⟨q, l, l', hline, hgroup, rfl⟩ :=
      takes_seq.mp ⟨hindent.le, hindent.le_size, hsome⟩
    obtain ⟨rfl, -, -, rfl⟩ := takes_look.mp hline
    obtain ⟨l, hblank, rfl⟩ := takes_group.mp hgroup
    obtain ⟨hall, rfl⟩ := spells_run.mp hblank.spells
    refine .inr ⟨k, ?_, fun c hc => covers_of_has (hall c hc)⟩
    exact ⟨[], [], ns, rfl, fun x hx => absurd hx List.not_mem_nil, hns⟩
  · obtain ⟨-, rfl⟩ := spells_empty.mp hnone
    exact .inl hns

/-! ## What is made of a match -/

/-- The rule is the one that splits assertions. -/
abbrev Splits (r : Rule) : Prop :=
  Made r Old.labelOrVisible New.labelOrVisible ["indent", "labelled", "visible"]

/-- The text around the two copies. -/
def Split (x y s : List Char) : Prop :=
  ∃ head middle foot, s = head ++ (x ++ (middle ++ (y ++ foot))) ∧
    Fits headOutline head ∧ Fits middleOutline middle ∧ Fits footOutline foot

variable {r : Rule} {document : String} {m : Match} {l : Marks}

/-- The captured indentation, and what stands for it where there is none, is
made of blanks. -/
theorem blank_indent (h : Splits r)
    (ht : Takes document.toList.toArray assertion m.start m.stop l)
    (hm : m.Has l) {fallback : String}
    (hfallback : ∀ c ∈ fallback.toList, Covers Piece.blankSet.ranges c) :
    ∀ c ∈ (((r.hit document m).group? "indent").getD fallback).toList,
      Covers Piece.blankSet.ranges c := by
  rcases takes_indent ht with hnone | ⟨k, hmarked, hblank⟩
  · rw [Rule.group?_hit (g := 0) h.names rfl,
      hm.span?_eq_none (Nat.succ_pos 0) hnone]
    exact hfallback
  · rw [Rule.group?_hit (g := 0) h.names rfl, hm.span?_eq_some (Nat.succ_pos 0)
      hmarked, Option.map_some, Option.getD_some, String.toList_ofList]
    exact hblank

/-- Every match of the assertion is split around its two subjects. -/
theorem produce_split (h : Splits r)
    (ht : Takes document.toList.toArray assertion m.start m.stop l)
    (hm : m.Has l) :
    ∃ p k p' k' s,
      Assertion document.toList.toArray m.start m.stop l p k p' k' ∧
      r.produce (r.hit document m) = .ok s ∧
      Split (slice document.toList.toArray p k)
        (slice document.toList.toArray p' k') s.toList := by
  obtain ⟨p, k, p', k', hparts⟩ := takes_assertion ht
  have hlabelled : (r.hit document m).group "labelled" =
      .ok (String.ofList (slice document.toList.toArray p k)) := by
    rw [Hit.group, Rule.group?_hit (g := 1) h.names rfl,
      hm.span?_eq_some (Nat.succ_pos 1) hparts.marked]
    rfl
  have hvisible : (r.hit document m).group "visible" =
      .ok (String.ofList (slice document.toList.toArray p' k')) := by
    rw [Hit.group, Rule.group?_hit (g := 2) h.names rfl,
      hm.span?_eq_some (Nat.succ_pos 2) hparts.marked']
    rfl
  have hnone : ∀ c ∈ "".toList, Covers Piece.blankSet.ranges c :=
    fun c hc => absurd hc List.not_mem_nil
  have hinner : ∀ c ∈ innerIndent.toList, Covers Piece.blankSet.ranges c := by
    intro c hc
    rw [List.eq_of_mem_replicate (n := 2) hc]
    exact covers_of_has (by decide)
  have hfirst := fits_run (blank_indent h ht hm hnone)
  have hlater := fits_run (blank_indent h ht hm hinner)
  have hline := fits_lineEnding (r.hit document m).lineEnding
  have hfilled :
      List.Forall₂ (fun part s => Part.produce (r.hit document m) part = .ok s)
      New.labelOrVisible _ :=
    .cons rfl (.cons rfl
      (.cons hlabelled (.cons rfl (.cons rfl (.cons rfl (.cons rfl (.cons
        hvisible (.cons rfl (.cons rfl (.cons rfl (.cons rfl .nil)))))))))))
  obtain ⟨s, hs, hlist⟩ := Template.produce_eq_ok hfilled
  refine ⟨p, k, p', k', s,
    hparts, by rw [h.produce, hs], _, _, _, ?_, hfirst.append (fits_ofText _),
    (fits_ofText _).append (hline.append (hlater.append (fits_ofText _))),
    (fits_ofText _).append (hline.append (hlater.append (fits_ofText _)))⟩
  rw [hlist]
  simp only [List.map_cons, List.map_nil, List.flatten_cons, List.flatten_nil,
    List.append_nil, List.append_assoc, String.toList_ofList]

/-- Splitting an assertion makes nothing that `q` spells, if there was nothing
before. -/
theorem patch_of_split {q : Regex} (hq : splitsApart q.outline = true)
    (hworded : q.worded = true) (hclosed : q.closed = true) {text : Array Char}
    (hno : ∀ i j l, ¬ Takes text q i j l) {i j p k p' k' : Nat}
    (hparts : Assertion text i j l p k p' k') {s : List Char}
    (hs : Split (slice text p k) (slice text p' k') s) : Patch q s := by
  obtain ⟨head, middle, foot, rfl, hhead, hmiddle, hfoot⟩ := hs
  obtain ⟨ls, hlabelled⟩ := hparts.labelled
  obtain ⟨ls', hvisible⟩ := hparts.visible
  refine patch_of_copies hq hhead hmiddle hfoot
    (Slot.subject_split hlabelled.spells)
    (Slot.subject_split hvisible.spells) fun b hb => ⟨?_, ?_⟩
  · exact free_slice hworded hclosed hlabelled.le hlabelled.le_size
      (fun i j l _ _ => hno i j l) (by rw [hb, hparts.plain])
  · exact free_slice hworded hclosed hvisible.le hvisible.le_size
      (fun i j l _ _ => hno i j l) (by rw [hb, hparts.plain'])

theorem splitsApart_shapes :
    splitsApart (meaning Old.twoImports).outline = true ∧
    splitsApart (meaning Old.oneUser).outline = true ∧
    splitsApart (meaning Old.twoUsers).outline = true := by
  decide +kernel

end Codemod.Migration
