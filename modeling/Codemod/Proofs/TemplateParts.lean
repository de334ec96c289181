import Codemod.Proofs.TokenTexts

/-!
# A template in parts

A template may be handed to a shape in parts. If it is cut at white space, and
the white space is left out, the shape has the pattern that it has with the
whole template, unless the white space is in a literal: then the pattern is
another one, whatever stands around the template.

The cut of a template goes on behind a first part with what that part leaves
open (`tokens_append`). So all that the first part has to tell is what is open
at its end: white space closes a word, belongs to a literal, and is nothing to
what stands behind it. Whether a literal is open is said without the cut, by
the quotes alone (`openQuote?`).
-/

namespace Codemod

open Text (isWhite isAsciiWord)

namespace Token

/-! ## The literal that a text leaves open -/

/-- The quote of the literal that is open behind a character, from the one that
is open before it. -/
def quoteBehind : Option Char → Char → Option Char
  | none, c => if isQuote c then some c else none
  | some q, c => if c = q then none else some q

/-- The quote of the literal that a text opens and does not close. -/
def openQuote? (cs : List Char) : Option Char :=
  cs.foldl quoteBehind none

theorem isQuote_of_quoteBehind {before : Option Char}
    (h : ∀ q ∈ before, isQuote q = true) (c : Char) :
    ∀ q ∈ quoteBehind before c, isQuote q = true := by
  intro q hq
  cases before with
  | none =>
      obtain ⟨hc, heq⟩ := Option.ite_none_right_eq_some.mp hq
      cases heq
      exact hc
  | some p =>
      obtain ⟨-, heq⟩ := Option.ite_none_left_eq_some.mp hq
      exact h q heq

/-- Only a quote opens a literal. -/
theorem isQuote_of_openQuote? (cs : List Char) :
    ∀ q ∈ openQuote? cs, isQuote q = true :=
  List.foldlRecOn (motive := fun o => ∀ q ∈ o, isQuote q = true) cs quoteBehind
    (by simp) fun _ h c _ => isQuote_of_quoteBehind h c

namespace Cut

/-! ## The cut behind a first part -/

/-- The tokens that a part of a template finishes, and what is open behind
it. -/
def run : Cut → List Char → List Token × Cut
  | cut, [] => ([], cut)
  | cut, c :: cs =>
    let (done, next) := cut.feed c
    let (more, last) := next.run cs
    (done ++ more, last)

theorem tokens_append (cut : Cut) (xs ys : List Char) :
    cut.tokens (xs ++ ys) = (cut.run xs).1 ++ (cut.run xs).2.tokens ys := by
  induction xs generalizing cut with
  | nil => rfl
  | cons x xs ih =>
      simp only [List.cons_append, tokens, run, ih, List.append_assoc]

theorem tokens_eq_run (cut : Cut) (xs : List Char) :
    cut.tokens xs = (cut.run xs).1 ++ (cut.run xs).2.flush := by
  have h := tokens_append cut xs []
  rwa [List.append_nil] at h

/-- The quote of the literal that is open. -/
def quote? : Cut → Option Char
  | .quoted q _ => some q
  | .none | .word _ => Option.none

theorem quote?_start (c : Char) :
    (start c).2.quote? = quoteBehind Option.none c := by
  by_cases hq : isQuote c = true
  · simp [start, quoteBehind, quote?, isWhite_of_isQuote hq, hq]
  · by_cases hw : isWhite c = true <;> by_cases hword : isAsciiWord c = true <;>
      simp [start, quoteBehind, quote?, hq, hw, hword]

/-- One character changes the open literal as its quotes say. -/
theorem quote?_feed (cut : Cut) (c : Char) :
    (cut.feed c).2.quote? = quoteBehind cut.quote? c := by
  cases cut with
  | none => exact quote?_start c
  | word rev =>
      by_cases hc : isAsciiWord c = true
      · simp [feed, hc, quote?, quoteBehind, isQuote_of_isAsciiWord hc]
      · simpa [feed, hc, quote?] using quote?_start c
  | quoted q rev =>
      by_cases hc : c = q <;> simp [feed, hc, quote?, quoteBehind]

theorem quote?_run (cut : Cut) (cs : List Char) :
    (cut.run cs).2.quote? = cs.foldl quoteBehind cut.quote? := by
  induction cs generalizing cut with
  | nil => rfl
  | cons c cs ih =>
      show ((cut.feed c).2.run cs).2.quote? = _
      rw [ih, quote?_feed, List.foldl_cons]

theorem eq_quoted {cut : Cut} {q : Char} (h : cut.quote? = some q) :
    ∃ rev, cut = .quoted q rev := by
  cases cut with
  | none | word => cases h
  | quoted p rev =>
      cases h
      exact ⟨rev, rfl⟩

/-! ## White space behind a first part -/

theorem tokens_whites {w : List Char}
    (hw : ∀ c ∈ w, isWhite c = true) (cs : List Char) :
    Cut.none.tokens (w ++ cs) = Cut.none.tokens cs := by
  induction w with
  | nil => rfl
  | cons c w ih =>
      rw [List.forall_mem_cons] at hw
      rw [List.cons_append, tokens_white hw.1, ih hw.2]

/-- Outside of literals white space finishes what is open, and the cut starts
anew behind it. -/
theorem tokens_gap {cut : Cut} (hcut : cut.quote? = Option.none) {w : List Char}
    (hne : w ≠ []) (hw : ∀ c ∈ w, isWhite c = true) (cs : List Char) :
    cut.tokens (w ++ cs) = cut.flush ++ Cut.none.tokens cs := by
  cases cut with
  | none => exact tokens_whites hw cs
  | word rev =>
      have hmax : ∀ c ∈ (w ++ cs).head?, isAsciiWord c = false := by
        cases w with
        | nil => exact absurd rfl hne
        | cons d w =>
            rintro c ⟨⟩
            exact isAsciiWord_eq_false (.inl (hw d List.mem_cons_self))
      have hword := tokens_word (w := []) nofun hmax rev
      rw [List.nil_append, List.append_nil, tokens_whites hw] at hword
      exact hword
  | quoted q rev => cases hcut

/-- What a literal holds already, it keeps. -/
theorem tokens_literal (q : Char) (rev cs : List Char) :
    ∃ more us, (Cut.quoted q rev).tokens cs =
      .quoted (rev.reverse ++ more) :: us := by
  by_cases hq : q ∈ cs
  · obtain ⟨body, ds, rfl, hbody⟩ := List.eq_append_cons_of_mem hq
    exact ⟨body ++ [q], _, by rw [tokens_quoted hbody, List.append_assoc]⟩
  · exact ⟨cs, [], tokens_unclosed hq rev⟩

/-- In a literal white space belongs to it. -/
theorem tokens_gap_quoted {q : Char} (hq : isQuote q = true)
    (rev : List Char) {w : List Char}
    (hne : w ≠ []) (hw : ∀ c ∈ w, isWhite c = true) (cs : List Char) :
    ∃ c more us, isWhite c = true ∧ (Cut.quoted q rev).tokens (w ++ cs) =
        .quoted (rev.reverse ++ c :: more) :: us := by
  obtain ⟨c, w, rfl⟩ := List.exists_cons_of_ne_nil hne
  have hc : isWhite c = true := hw c List.mem_cons_self
  have hcq : c ≠ q := by
    rintro rfl
    cases hc.symm.trans (isWhite_of_isQuote hq)
  have hfeed : (Cut.quoted q rev).feed c = ([], .quoted q (c :: rev)) := by
    simp [feed, hcq]
  obtain ⟨more, us, hmore⟩ := tokens_literal q (c :: rev) (w ++ cs)
  rw [List.reverse_cons, List.append_assoc] at hmore
  refine ⟨c, more, us, hc, ?_⟩
  rw [List.cons_append, tokens, hfeed]
  exact hmore

end Cut

/-! ## Templates -/

/-- If no literal is open behind the first part of a template, the parts can be
cut one by one. -/
theorem ofTemplate_append_white {a w : List Char} (ha : openQuote? a = none)
    (hne : w ≠ []) (hw : ∀ c ∈ w, isWhite c = true) (b : List Char) :
    ofTemplate (a ++ w ++ b) = ofTemplate a ++ ofTemplate b := by
  have hquote : (Cut.none.run a).2.quote? = none :=
    (Cut.quote?_run .none a).trans ha
  calc ofTemplate (a ++ w ++ b)
      = (Cut.none.run a).1 ++ (Cut.none.run a).2.tokens (w ++ b) := by
        rw [ofTemplate, List.append_assoc, Cut.tokens_append]
    _ = (Cut.none.run a).1 ++ ((Cut.none.run a).2.flush ++ ofTemplate b) := by
        rw [Cut.tokens_gap hquote hne hw, ofTemplate]
    _ = ofTemplate a ++ ofTemplate b := by
        rw [← List.append_assoc, ← Cut.tokens_eq_run, ← ofTemplate]

/-- If a literal is open behind the first part of a template, white space
behind it belongs to the literal. -/
theorem ofTemplate_append_white_of_open {a w : List Char} {q : Char}
    (ha : openQuote? a = some q)
    (hne : w ≠ []) (hw : ∀ c ∈ w, isWhite c = true) (b : List Char) :
    ∃ ts text c more us, isWhite c = true ∧
    ofTemplate a = ts ++ [.quoted text] ∧
      ofTemplate (a ++ w ++ b) = ts ++ .quoted (text ++ c :: more) :: us := by
  obtain ⟨rev, hcut⟩ := Cut.eq_quoted ((Cut.quote?_run .none a).trans ha)
  obtain ⟨c, more, us, hc, hmore⟩ :=
    Cut.tokens_gap_quoted (isQuote_of_openQuote? a q ha) rev hne hw b
  refine ⟨(Cut.none.run a).1, rev.reverse, c, more, us, hc, ?_, ?_⟩
  · rw [ofTemplate, Cut.tokens_eq_run, hcut, Cut.flush]
  · rw [ofTemplate, List.append_assoc, Cut.tokens_append, hcut, hmore]

/-- A template can be cut part by part if and only if the white space is not in
a literal. -/
theorem ofTemplate_append_white_iff {a w : List Char} (hne : w ≠ [])
    (hw : ∀ c ∈ w, isWhite c = true) (b : List Char) :
    ofTemplate (a ++ w ++ b) = ofTemplate a ++ ofTemplate b ↔
    openQuote? a = none := by
  refine ⟨fun heq => Option.eq_none_iff_forall_ne_some.mpr fun q ha => ?_,
    fun ha => ofTemplate_append_white ha hne hw b⟩
  obtain ⟨ts, text, c, more, us, -, hfirst, hall⟩ :=
    ofTemplate_append_white_of_open ha hne hw b
  rw [hall, hfirst, List.append_assoc, List.append_cancel_left_eq] at heq
  have htext : text ++ c :: more = text :=
    Token.quoted.inj (List.cons.inj heq).1
  simp at htext

end Token

/-! ## Shapes -/

theorem Pattern.escape_white_cons {c : Char}
    (hc : isWhite c = true) (cs : List Char) :
    escape (c :: cs) = c :: escape cs := by
  have hmeta : isMeta c = false := by
    have hsigns : metaChars.any isWhite = false := rfl
    rw [Bool.eq_false_iff]
    intro hmem
    exact List.any_eq_false.mp hsigns c (List.contains_iff_mem.mp hmem) hc
  rw [escape, List.flatMap_cons, escapeChar, hmeta]
  rfl

namespace Shape

/-- The patterns of pieces, each with what may stand between it and a piece
behind it. -/
def front (ps : List Piece) : List Char :=
  ps.flatMap fun p => p.pattern ++ p.joint

theorem join_append (ps : List Piece) {qs : List Piece} (hqs : qs ≠ []) :
    join (ps ++ qs) = front ps ++ join qs := by
  induction ps with
  | nil => rfl
  | cons p ps ih =>
      obtain ⟨r, rs, hrs⟩ :=
        List.exists_cons_of_ne_nil (List.append_ne_nil_of_right_ne_nil ps hqs)
      rw [List.cons_append, hrs, join, ← hrs, ih, front, front,
        List.flatMap_cons]
      simp only [List.append_assoc]

/-- Behind a token the pattern ends or goes on with white space that may be
missing. -/
theorem join_token (t : Token) (ps : List Piece) : ∃ rest,
    join (.token t :: ps) = t.pattern ++ rest ∧ ∀ c ∈ rest.head?, c = '\\' := by
  cases ps with
  | nil => exact ⟨[], (List.append_nil _).symm, nofun⟩
  | cons p ps =>
      refine ⟨"\\s*".toList ++ join (p :: ps), ?_, fun c hc => ?_⟩
      · rw [join, List.append_assoc]
        rfl
      · cases hc
        rfl

/-- If a literal holds white space where it ended before, the pattern is
another one, whatever stands behind it. -/
theorem join_literal_ne (ps qs rs : List Piece) {c : Char}
    (hc : isWhite c = true) (text more : List Char) :
    join (ps ++ .token (.quoted (text ++ c :: more)) :: qs) ≠
      join (ps ++ .token (.quoted text) :: rs) := by
  intro heq
  obtain ⟨long, hlong, -⟩ := join_token (.quoted (text ++ c :: more)) qs
  obtain ⟨rest, hrest, hhead⟩ := join_token (.quoted text) rs
  have hescape : Pattern.escape (text ++ c :: more) =
      Pattern.escape text ++ c :: Pattern.escape more := by
    rw [← Pattern.escape_white_cons hc]
    exact List.flatMap_append
  rw [join_append _ (List.cons_ne_nil _ _),
    join_append _ (List.cons_ne_nil _ _), List.append_cancel_left_eq,
    hlong, hrest, Token.pattern, Token.pattern, hescape,
    List.append_assoc, List.append_cancel_left_eq] at heq
  obtain rfl := hhead c (by rw [← heq]; rfl)
  cases hc

/-- A shape has the same pattern with a template and with its parts if and only
if the white space between them is not in a literal. -/
theorem pattern_append_white_iff {a w : String} (hne : w.toList ≠ [])
    (hw : ∀ c ∈ w.toList, isWhite c = true)
    (b : String) (before after : Shape) :
    (before ++ code (a ++ w ++ b) ++ after).pattern =
        (before ++ code a ++ code b ++ after).pattern ↔
      Token.openQuote? a.toList = none := by
  have hwhole : (before ++ code (a ++ w ++ b) ++ after).pieces =
      before.pieces ++ (Token.ofTemplate (a.toList ++ w.toList ++ b.toList)).map
      .token ++ after.pieces := by
    rw [← String.toList_append, ← String.toList_append]
    rfl
  have hparts : (before ++ code a ++ code b ++ after).pieces = before.pieces ++
      (Token.ofTemplate a.toList ++ Token.ofTemplate b.toList).map .token ++
      after.pieces := by
    rw [List.map_append, ← List.append_assoc]
    rfl
  rw [pattern, pattern, hwhole, hparts]
  constructor
  · intro heq
    rw [Option.eq_none_iff_forall_ne_some]
    intro q ha
    obtain ⟨ts, text, c, more, us, hc, hfirst, hall⟩ :=
      Token.ofTemplate_append_white_of_open ha hne hw b.toList
    refine join_literal_ne (before.pieces ++ ts.map .token)
      (us.map .token ++ after.pieces)
      ((Token.ofTemplate b.toList).map .token ++ after.pieces) hc text more ?_
    rw [hall, hfirst] at heq
    simpa using String.ofList_injective heq
  · intro ha
    rw [Token.ofTemplate_append_white ha hne hw]

/-- A code template can be written in parts, with white space between them left
out, if and only if every literal that the first part opens is closed in it:
the tokens are those of the parts, and the shape has the pattern that it has
with the parts one after the other, whatever pieces stand before and behind
them. -/
theorem code_splits_iff {a w b : String} (hne : w ≠ "")
    (hw : ∀ c ∈ w.toList, isWhite c = true) :
    (Token.ofTemplate (a ++ w ++ b).toList =
        Token.ofTemplate a.toList ++ Token.ofTemplate b.toList ↔
      Token.openQuote? a.toList = none) ∧
    ∀ before after : Shape, (before ++ code (a ++ w ++ b) ++ after).pattern =
          (before ++ code a ++ code b ++ after).pattern ↔
        Token.openQuote? a.toList = none := by
  have hgap : w.toList ≠ [] := fun h => hne (String.toList_eq_nil_iff.mp h)
  refine ⟨?_, fun before after =>
    pattern_append_white_iff hgap hw b before after⟩
  rw [String.toList_append, String.toList_append]
  exact Token.ofTemplate_append_white_iff hgap hw b.toList

/-- The other quote in the literal does not open one, and the words on both
sides of the white space stay two. -/
theorem code_splits_iff_words :
    ("\n\t" ≠ "" ∧ ∀ c ∈ "\n\t".toList, isWhite c = true) ∧
    Token.openQuote? "say(\"it's\") const".toList = none ∧
    Token.ofTemplate "say(\"it's\") const\n\torg".toList =
      Token.ofTemplate "say(\"it's\") const".toList ++ [.word ['o', 'r', 'g']] ∧
    ∀ before after : Shape,
      (before ++ code "say(\"it's\") const\n\torg" ++ after).pattern =
      (before ++ code "say(\"it's\") const" ++ code "org" ++
        after).pattern := by
  have hne : "\n\t" ≠ "" := by decide
  have hw : ∀ c ∈ "\n\t".toList, isWhite c = true := List.all_eq_true.mp rfl
  have hclosed : Token.openQuote? "say(\"it's\") const".toList = none := by
    decide
  obtain ⟨htokens, hpattern⟩ :=
    code_splits_iff (a := "say(\"it's\") const") (b := "org") hne hw
  exact ⟨⟨hne, hw⟩, hclosed, htokens.mpr hclosed,
    fun before after => (hpattern before after).mpr hclosed⟩

end Shape

end Codemod
