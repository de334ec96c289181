import Codemod.Proofs.Replace
import Codemod.Proofs.Spacing

/-!
# The texts of the tokens

Cutting a template loses nothing but white space. From the pattern of a token
its raw text can be taken back (`rawText`), and the raw texts with the white
space that was passed over are the template again. Each of them stands there as
what it is: a word is as long as it can be on both sides, a literal ends at the
next quote of its kind, and only at the end of the template it may lack that
quote.

The induction is on the cut. What stands before the rest of the template goes
along, since a word has to know the character in front of it.
-/

namespace Codemod

open Text (isWhite isAsciiWord)

namespace Token

/-! ## From the pattern back to the text -/

/-- Take escaping back: behind a backslash stands a character that means
itself. -/
def unescape : List Char → List Char
  | '\\' :: c :: cs => c :: unescape cs
  | c :: cs => c :: unescape cs
  | [] => []

/-- Take the boundaries of a word off. -/
def unbound : List Char → List Char
  | '\\' :: 'b' :: cs => cs.dropLast.dropLast
  | cs => cs

/-- The raw text of a token, from its pattern. -/
def rawText (pattern : List Char) : List Char := unescape (unbound pattern)

theorem unescape_cons {c : Char} (hc : c ≠ '\\') (cs : List Char) :
    unescape (c :: cs) = c :: unescape cs := by
  cases cs with
  | nil => rw [unescape.eq_2 _ _ (by simp)]
  | cons d cs => rw [unescape.eq_2 _ _ (by simp [hc])]

theorem escapeChar_cases (c : Char) :
    Pattern.escapeChar c = ['\\', c] ∨
    (Pattern.escapeChar c = [c] ∧ c ≠ '\\') := by
  by_cases hc : Pattern.isMeta c = true
  · exact .inl (by simp [Pattern.escapeChar, hc])
  · refine .inr ⟨by simp [Pattern.escapeChar, hc], ?_⟩
    rintro rfl
    exact hc (by decide)

theorem unescape_escape (cs : List Char) :
    unescape (Pattern.escape cs) = cs := by
  induction cs with
  | nil => rfl
  | cons c cs ih =>
      rw [Pattern.escape, List.flatMap_cons, ← Pattern.escape]
      rcases escapeChar_cases c with hc | ⟨hc, hne⟩
      · rw [hc]
        show c :: unescape (Pattern.escape cs) = c :: cs
        rw [ih]
      · rw [hc, List.singleton_append, unescape_cons hne, ih]

/-- Without the boundaries of a word nothing is taken off. -/
theorem unbound_eq_self {cs : List Char} (h : ¬ ['\\', 'b'] <+: cs) :
    unbound cs = cs := by
  refine unbound.eq_2 cs fun ds heq => h ?_
  rw [heq]
  exact List.prefix_append ['\\', 'b'] ds

theorem rawText_pattern {t : Token} (ht : t.Begun) :
    rawText t.pattern = t.text := by
  have hback : unbound t.pattern = Pattern.escape t.text := by
    cases t with
    | word w =>
        show (Pattern.escape w ++ ['\\', 'b']).dropLast.dropLast =
          Pattern.escape w
        rw [List.append_cons, List.dropLast_concat, List.dropLast_concat]
    | quoted cs =>
        obtain ⟨q, body, hq, rfl⟩ := ht
        refine unbound_eq_self fun h => ?_
        simp only [isQuote, Bool.or_eq_true, beq_iff_eq] at hq
        rcases hq with (rfl | rfl)
          | rfl <;> cases (List.cons_prefix_cons.mp h).1
    | sign c =>
        refine unbound_eq_self fun h => ?_
        have hsign : Pattern.escape [c] = Pattern.escapeChar c :=
          List.flatMap_singleton _ _
        rw [pattern, hsign] at h
        rcases escapeChar_cases c with hc | ⟨hc, -⟩
        · rw [hc] at h
          obtain rfl :=
            (List.cons_prefix_cons.mp (List.cons_prefix_cons.mp h).2).1
          cases hc
        · rw [hc] at h
          have hlen := h.length_le
          simp at hlen
  rw [rawText, hback, unescape_escape]

/-! ## What stands where in a template -/

/-- What a text is, with these texts before and behind it. -/
inductive Kind (before after : List Char) : List Char → Prop where
  | word {w : List Char} (hne : w ≠ []) (hw : ∀ c ∈ w, isAsciiWord c = true)
      (hbefore : ∀ c ∈ before.getLast?, isAsciiWord c = false)
      (hafter : ∀ c ∈ after.head?, isAsciiWord c = false) : Kind before after w
  | literal {q : Char} {body : List Char}
      (hq : isQuote q = true) (hbody : q ∉ body) :
      Kind before after (q :: (body ++ [q]))
  | openLiteral {q : Char} {body : List Char} (hq : isQuote q = true)
      (hbody : q ∉ body) (hend : after = []) : Kind before after (q :: body)
  | sign {c : Char} (hwhite : isWhite c = false) (hquote : isQuote c = false)
      (hword : isAsciiWord c = false) : Kind before after [c]

/-- The template is made of the texts, in order, and of white space in the gaps
around them. Each text is of a kind where it stands; `front` stands before the
template. -/
structure Retells (front template : List Char) (texts gaps : List (List Char)) :
    Prop where
  length_gaps : gaps.length = texts.length + 1
  white : ∀ gap ∈ gaps, ∀ c ∈ gap, isWhite c = true
  weave_eq : weave gaps texts = template
  kind : ∀ i text, texts[i]? = some text →
    Kind (front ++ weave (gaps.take (i + 1)) (texts.take i))
      (weave (gaps.drop (i + 1)) (texts.drop (i + 1))) text

variable {front cs : List Char} {texts gaps : List (List Char)}

theorem weave_cons_char (c : Char)
    (gap : List Char) (gaps texts : List (List Char)) :
    weave ((c :: gap) :: gaps) texts = c :: weave (gap :: gaps) texts := by
  cases texts <;> rfl

/-- One more text in front, with nothing before it. -/
theorem Retells.cons {text : List Char}
    (h : Retells (front ++ text) cs texts gaps) (hkind : Kind front cs text) :
    Retells front (text ++ cs) (text :: texts) ([] :: gaps) := by
  refine ⟨by simp [h.length_gaps],
    List.forall_mem_cons.mpr ⟨List.forall_mem_nil _, h.white⟩, ?_, ?_⟩
  · rw [weave, h.weave_eq, List.nil_append]
  · intro i text' htext
    cases i with
    | zero =>
        cases htext
        have hfront : front ++ weave (([] :: gaps).take 1) [] = front := by
          simp [weave]
        rw [List.take_zero, hfront]
        show Kind front (weave gaps texts) text
        rw [h.weave_eq]
        exact hkind
    | succ i =>
        have hfront : front ++ weave (([] :: gaps).take (i + 2))
            ((text :: texts).take (i + 1)) =
            front ++ text ++ weave (gaps.take (i + 1)) (texts.take i) := by
          simp [weave]
        rw [hfront]
        exact h.kind i text' htext

/-- One more character in front, which is white space. -/
theorem Retells.white_cons {c : Char} (h : Retells (front ++ [c]) cs texts gaps)
    (hc : isWhite c = true) : ∃ gaps', Retells front (c :: cs) texts gaps' := by
  obtain ⟨hlen, hwhite, hweave, hkind⟩ := h
  cases gaps with
  | nil => cases hlen
  | cons gap gaps =>
      rw [List.forall_mem_cons] at hwhite
      refine ⟨(c :: gap) :: gaps, hlen, ?_, ?_, fun i text htext => ?_⟩
      · exact List.forall_mem_cons.mpr
          ⟨List.forall_mem_cons.mpr ⟨hc, hwhite.1⟩, hwhite.2⟩
      · rw [weave_cons_char, hweave]
      · have hnext := hkind i text htext
        rw [List.take_succ_cons] at hnext ⊢
        rw [List.append_assoc, List.singleton_append,
          ← weave_cons_char] at hnext
        exact hnext

theorem isAsciiWord_eq_false {c : Char}
    (h : isWhite c = true ∨ isQuote c = true) :
    isAsciiWord c = false := by
  rw [Bool.eq_false_iff]
  intro hword
  rw [isWhite_of_isAsciiWord hword, isQuote_of_isAsciiWord hword] at h
  simp at h

/-- A template is retold by its tokens, behind a text that does not end in the
middle of a word. -/
theorem Cuts.retells {ts : List Token} (h : Cuts cs ts)
    (hfront : ∀ c ∈ front.getLast?, ∀ d ∈ cs.head?, isAsciiWord d = true →
      isAsciiWord c = false) :
    ∃ gaps, Retells front cs (ts.map Token.text) gaps := by
  have hseam :
      ∀ {p : List Char} {c : Char} {ds : List Char}, isAsciiWord c = false →
      ∀ x ∈ (p ++ [c]).getLast?, ∀ d ∈ ds.head?, isAsciiWord d = true →
      isAsciiWord x = false := by
    intro p c ds hc x hx _ _ _
    rw [List.getLast?_concat] at hx
    cases hx
    exact hc
  induction h generalizing front with
  | nil => exact ⟨[[]], rfl, by simp, rfl, by simp⟩
  | @white c cs ts hc _ ih =>
      obtain ⟨gaps, hgaps⟩ :=
        @ih (front ++ [c]) (hseam (isAsciiWord_eq_false (.inl hc)))
      exact hgaps.white_cons hc
  | @word w cs ts hne hw hmax _ ih =>
      obtain ⟨gaps, hgaps⟩ := @ih (front ++ w) fun c _ d hd hletter => by
        cases (hmax d hd).symm.trans hletter
      refine ⟨_, hgaps.cons (.word hne hw (fun c hc => ?_) hmax)⟩
      obtain ⟨d, hd⟩ := Option.isSome_iff_exists.mp (List.isSome_head?.mpr hne)
      refine hfront c hc d ?_ (hw d (List.mem_of_mem_head? hd))
      rw [List.head?_append, hd]
      rfl
  | @quoted q body cs ts hq hbody _ ih =>
      obtain ⟨gaps, hgaps⟩ := @ih (front ++ (q :: body) ++ [q])
        (hseam (isAsciiWord_eq_false (.inr hq)))
      have htext : Retells (front ++ (q :: (body ++ [q]))) cs
          (ts.map Token.text) gaps := by
        simpa using hgaps
      have hcons := htext.cons (.literal hq hbody)
      rw [List.cons_append, List.append_assoc, List.singleton_append] at hcons
      exact ⟨_, hcons⟩
  | @unclosed q body hq hbody =>
      have hnil : Retells (front ++ (q :: body)) [] [] [[]] :=
        ⟨rfl, by simp, rfl, by simp⟩
      have hcons := hnil.cons (.openLiteral hq hbody rfl)
      rw [List.append_nil] at hcons
      exact ⟨_, hcons⟩
  | @sign c cs ts hwhite hquote hword _ ih =>
      obtain ⟨gaps, hgaps⟩ := @ih (front ++ [c]) (hseam hword)
      exact ⟨_, hgaps.cons (.sign hwhite hquote hword)⟩

end Token

/-- The patterns of a code template keep all of it but white space between the
tokens, and each of them stands for a whole word, a whole literal or one other
character. -/
theorem Shape.code_loses_nothing (template : String) : ∃ gaps,
    Token.Retells [] template.toList
      ((code template).pieces.map fun p => Token.rawText p.pattern) gaps := by
  have hcuts : Token.Cuts template.toList (Token.ofTemplate template.toList) :=
    Token.cuts_iff.mpr rfl
  have htexts : ((code template).pieces.map fun p => Token.rawText p.pattern) =
      (Token.ofTemplate template.toList).map Token.text := by
    rw [code, List.map_map]
    exact List.map_congr_left fun t ht =>
      Token.rawText_pattern (hcuts.row.begun t ht)
  rw [htexts]
  exact hcuts.retells fun c hc => by cases hc

end Codemod
