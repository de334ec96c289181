import Codemod.Proofs.Assertion
import Codemod.Proofs.Direct
import Codemod.Proofs.Extent
import Codemod.Proofs.Spacing

/-!
# The parts of an assertion

The assertion of a label or of visibility is three rows of tokens with two
subjects between them, and the indentation of its line may be in front.
`Stands` says where the parts of an assertion are in a text. Where it begins
decides all other places (`Stands.unique`): tokens are written in one way, and
what stands in parentheses ends where these are closed.

The expression of the shape has the same parts in another order
(`alike_assertion`). So a part of the text that it takes, on whatever way, has
these parts, and `chosen_parts` says what is captured on the way that is
preferred.
-/

namespace Codemod.Migration

open Pattern

/-- The tokens before the first subject, between the two, and behind the second
one. -/
def leadTokens : List Token := Token.ofTemplate "await expect(".toList

@[inherit_doc leadTokens]
def linkTokens : List Token :=
  Token.ofTemplate ").toHaveAttribute('aria-label')".toList ++
    Token.ofTemplate ".or(expect(".toList

@[inherit_doc leadTokens]
def footTokens : List Token := Token.ofTemplate ").toBeVisible())".toList

/-- The expression of tokens in a row. -/
def row (ts : List Token) : Regex := Shape.regex slots 0 (ts.map .token)

/-- The expression of the indentation, which is there if the statement starts
its line. -/
def indentation : Regex :=
  .alt (.seq (.look .lineStart) (.group 1 (.star true (.one Piece.blankSet))))
    .empty

/-- The expression of the statement behind its indentation. -/
def statement : Regex :=
  .seq (row leadTokens)
    (subjectThen 2 (.seq (row linkTokens) (subjectThen 3 (row footTokens))))

/-- What an evaluation says of the parts: the expression that is read from the
pattern and the one of the shape are the same in a row. -/
theorem parts_checked :
    (match Reader.read ({ multiLine := true } : Options).flags
      (Shape.join Old.labelOrVisible.pieces) with
      | .ok (form, _) =>
          form.regex.row == (Regex.seq indentation statement).row &&
            form.regex.solid
      | .error _ => false) = true ∧
    assertion.row = (Regex.seq indentation statement).row ∧
    linkTokens.head? = some (.sign ')') ∧ footTokens.head? = some (.sign ')') ∧
    leadTokens.head? = some (.word "await".toList) ∧
        footTokens.getLast? = some (.sign ')') := by
  decide +kernel

theorem alike_assertion : Alike assertion (.seq indentation statement) :=
  alike_of_row parts_checked.2.1

theorem begun_lead : ∀ t ∈ leadTokens, t.Begun :=
  (Token.cuts_iff.mpr rfl : Token.Cuts _ leadTokens).row.begun

theorem begun_foot : ∀ t ∈ footTokens, t.Begun :=
  (Token.cuts_iff.mpr rfl : Token.Cuts _ footTokens).row.begun

theorem begun_link : ∀ t ∈ linkTokens, t.Begun := by
  have hlabel : Token.Cuts ").toHaveAttribute('aria-label')".toList _ :=
    Token.cuts_iff.mpr rfl
  have hor : Token.Cuts ".or(expect(".toList _ := Token.cuts_iff.mpr rfl
  exact fun t ht => (List.mem_append.mp ht).elim (hlabel.row.begun t)
    (hor.row.begun t)

section

variable {text : Array Char} {i j q a b a' b' : Nat} {l : Marks} {c : List Bool}

theorem takes_row {ts : List Token} {t : Token} (hhead : ts.head? = some t)
    (hts : ∀ t ∈ ts, t.Begun) :
    Takes text (row ts) i j l ↔ Written text ts i j ∧ l = [] := by
  refine takes_tokens ?_ fun t ht => (hts t ht).sound
  rintro rfl
  cases hhead

theorem takes_lead :
    Takes text (row leadTokens) i j l ↔ Written text leadTokens i j ∧ l = [] :=
  takes_row parts_checked.2.2.2.2.1 begun_lead

theorem takes_link :
    Takes text (row linkTokens) i j l ↔ Written text linkTokens i j ∧ l = [] :=
  takes_row parts_checked.2.2.1 begun_link

theorem takes_foot :
    Takes text (row footTokens) i j l ↔ Written text footTokens i j ∧ l = [] :=
  takes_row parts_checked.2.2.2.1 begun_foot

/-- Where the parts of an assertion are: its tokens are written from `q` to
`a`, from `b` to `a'` and from `b'` to `j`, and between them are parentheses
that are opened before and closed behind. -/
structure Stands (text : Array Char) (q a b a' b' j : Nat) : Prop where
  lead : Written text leadTokens q a
  labelled : closing? text a = some b
  link : Written text linkTokens b a'
  visible : closing? text a' = some b'
  foot : Written text footTokens b' j

theorem closing?_le (h : closing? text a = some b) : a ≤ b := by
  obtain ⟨n, -, rfl⟩ := Option.map_eq_some_iff.mp h
  exact Nat.le_add_right a n

theorem Stands.bounds (h : Stands text q a b a' b' j) :
    q ≤ a ∧ a ≤ b ∧ b ≤ a' ∧ a' ≤ b' ∧ b' ≤ j ∧ j ≤ text.size :=
  ⟨h.lead.bounds.1, closing?_le h.labelled, h.link.bounds.1,
    closing?_le h.visible, h.foot.bounds⟩

theorem Stands.last (h : Stands text q a b a' b' j) :
    q < j ∧ text[j - 1]? = some ')' := by
  have hbounds := h.bounds
  obtain ⟨k, hk, hlast⟩ := h.foot.final parts_checked.2.2.2.2.2
  have hstop := hlast.stop_eq
  obtain ⟨hle, hsize, htext, -⟩ := hlast
  have hj : j = k + 1 := hstop
  subst hj
  obtain ⟨c, hc, hcons⟩ := slice_eq_cons (Nat.lt_succ_self k) hsize
  rw [htext] at hcons
  refine ⟨by omega, ?_⟩
  rw [Nat.add_sub_cancel, hc, ← (List.cons.inj hcons).1]

/-- Where an assertion begins decides where its parts are. From left to right,
each part ends in one place only, and there the next one begins. -/
theorem Stands.unique {a₁ b₁ a₁' b₁' j₁ : Nat} (h : Stands text q a b a' b' j)
    (h' : Stands text q a₁ b₁ a₁' b₁' j₁) :
    a = a₁ ∧ b = b₁ ∧ a' = a₁' ∧ b' = b₁' ∧ j = j₁ := by
  obtain rfl := h.lead.stop_unique begun_lead h'.lead
  obtain rfl := Option.some.inj (h.labelled.symm.trans h'.labelled)
  obtain rfl := h.link.stop_unique begun_link h'.link
  obtain rfl := Option.some.inj (h.visible.symm.trans h'.visible)
  exact ⟨rfl, rfl, rfl, rfl, h.foot.stop_unique begun_foot h'.foot⟩

/-- The line of the second place starts at the first one, and there is nothing
but blanks between them. -/
structure Indents (text : Array Char) (i q : Nat) : Prop where
  le : i ≤ q
  start : Anchor.lineStart.holds (before? text i) text[i]? = true
  blank : ∀ d ∈ slice text i q, Piece.blankSet.has d = true

theorem passes_indentation (h : Passes text indentation i q l c)
    (hi : i ≤ text.size) :
    (Indents text i q ∧ l = [(2, i), (3, q)]) ∨
    (q = i ∧ l = [] ∧ c = [true]) := by
  cases h with
  | altLeft h =>
      cases h with
      | seq hlook hgroup =>
          cases hlook with
          | look hstart =>
              cases hgroup with
              | group _ hblank =>
                  obtain ⟨hall, rfl⟩ := hblank.of_run hi
                  exact .inl ⟨⟨hblank.le, hstart, hall⟩, rfl⟩
  | altRight h =>
      cases h
      exact .inr ⟨rfl, rfl, rfl⟩

/-- The indentation is passed, and that is preferred to passing it over. -/
theorem Indents.passes (h : Indents text i q) (hq : q ≤ text.size) :
    ∃ l c, Passes text indentation i q l (false :: c) :=
  ⟨_, _,
    .altLeft (.seq (.look h.start) (.group 1 (passes_run h.le hq h.blank)))⟩

theorem passes_subjectThen {g : Nat} {x : Regex}
    (h : Passes text (subjectThen g x) a j l c) (ha : a ≤ text.size) :
    ∃ b l' c', Enclosed text a b ∧ b ≤ text.size ∧ Passes text x b j l' c' := by
  cases h with
  | seq hfront h =>
      cases h with
      | seq hgroup h =>
          cases hgroup with
          | group _ hsubject =>
              cases h with
              | seq hback hx =>
                  have hp := hfront.takes ha
                  have hk := hsubject.takes hp.le_size
                  have hb := hback.takes hk.le_size
                  obtain ⟨-, rfl⟩ := hfront.of_run ha
                  obtain ⟨-, rfl⟩ := hback.of_run hk.le_size
                  exact ⟨_, _, _, ⟨_, _, _, hp, hk, hb⟩, hb.le_size, hx⟩

theorem passes_statement (h : Passes text statement q j l c)
    (hq : q ≤ text.size) :
    ∃ a b a' b', Stands text q a b a' b' j ∧ Enclosed text a b ∧
    Enclosed text a' b' := by
  obtain ⟨-, -, hlink?, hfoot?, -⟩ := parts_checked
  cases h with
  | seq hlead h =>
      have hlead := hlead.takes hq
      obtain ⟨b, _, _, hab, hb, h⟩ := passes_subjectThen h hlead.le_size
      cases h with
      | seq hlink h =>
          have hlink := hlink.takes hb
          obtain ⟨b', _, _, hab', hb', hfoot⟩ :=
            passes_subjectThen h hlink.le_size
          have hlinks := (takes_link.mp hlink).1
          have hfoots := (takes_foot.mp (hfoot.takes hb')).1
          exact ⟨_, b, _, b', ⟨(takes_lead.mp hlead).1,
              hab.closing (hlinks.head hlink? rfl), hlinks,
            hab'.closing (hfoots.head hfoot? rfl), hfoots⟩, hab, hab'⟩

/-- What the expression takes, on whatever way, is an assertion, and its
indentation may be in front. -/
theorem takes_parts (h : Takes text assertion i j l) :
    ∃ q a b a' b', Stands text q a b a' b' j ∧ Enclosed text a b ∧
    Enclosed text a' b' ∧ (Indents text i q ∨ q = i) := by
  have hi : i ≤ text.size := Nat.le_trans h.le h.le_size
  obtain ⟨c, hpasses⟩ := h.passes
  cases (alike_assertion _ _ _ _ _).mp hpasses with
  | @seq _ _ _ q _ _ _ _ _ hindent hstatement =>
      have hq := (hindent.takes hi).le_size
      obtain ⟨a, b, a', b', hstands, hab, hab'⟩ :=
        passes_statement hstatement hq
      refine ⟨q, a, b, a', b', hstands, hab, hab', ?_⟩
      rcases passes_indentation hindent hi with ⟨hindents, -⟩ | ⟨hq, -⟩
      · exact .inl hindents
      · exact .inr hq

/-- A statement that is passed foremost captures what stands in its
parentheses. -/
theorem Foremost.statement (h : Foremost text statement q j l c)
    (hq : q ≤ text.size) :
    ∃ a p b a' p' b', Stands text q a b a' b' j ∧ Captured text a p b ∧
    Captured text a' p' b' ∧ l = [(4, p), (5, b), (6, p'), (7, b')] := by
  obtain ⟨-, -, hlink?, hfoot?, -⟩ := parts_checked
  obtain ⟨a, l₁, l₂, c₁, c₂, hlead, hrest, rfl, rfl⟩ := h.seq
  have hlead := hlead.takes hq
  obtain ⟨hleads, rfl⟩ := takes_lead.mp hlead
  have hcloses : ∀ {ts : List Token} {b j l c}, ts.head? = some (.sign ')') →
      (∀ t ∈ ts, t.Begun) →
      b ≤ text.size → Passes text (row ts) b j l c → text[b]? = some ')' :=
    fun hhead hts hb h =>
      ((takes_row hhead hts).mp (h.takes hb)).1.head hhead rfl
  obtain ⟨p, b, l₃, c₃, hmore, rfl, hcaptured⟩ :=
    Foremost.subject hrest hlead.le_size fun hb h => by
    cases h with
    | seq hlink _ => exact hcloses hlink? begun_link hb hlink
  obtain ⟨a', l₄, l₅, c₄, c₅, hlink, hlast, rfl, rfl⟩ := hmore.seq
  have hlink := hlink.takes hcaptured.le_size
  obtain ⟨hlinks, rfl⟩ := takes_link.mp hlink
  obtain ⟨p', b', l₆, c₆, hfoot, rfl, hcaptured'⟩ :=
    Foremost.subject hlast hlink.le_size (hcloses hfoot? begun_foot)
  obtain ⟨hfoots, rfl⟩ := takes_foot.mp (hfoot.passes.takes hcaptured'.le_size)
  exact ⟨a, p, b, a', p', b', ⟨hleads, hcaptured.closing, hlinks,
      hcaptured'.closing, hfoots⟩, hcaptured, hcaptured', rfl⟩

end

end Codemod.Migration
