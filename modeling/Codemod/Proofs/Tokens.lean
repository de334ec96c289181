import Codemod.Shape.Token

/-!
# How a template is cut

The rules by which a template falls into tokens, one for each kind of token,
and the proof that they are what the cut does. A word is as long as it can be,
a literal ends at the next quote of its kind or else at the end of the
template, and every other character but white space is a token of its own.
`cuts_iff` also says that every template is cut in exactly one way.
-/

namespace Codemod.Token

open Text (isWhite isAsciiWord isWord)

/-- The template is cut into the tokens. -/
inductive Cuts : List Char → List Token → Prop where
  | nil : Cuts [] []
  | white {c : Char} {cs : List Char} {ts : List Token}
      (hc : isWhite c = true) (h : Cuts cs ts) :
      Cuts (c :: cs) ts
  | word {w cs : List Char} {ts : List Token}
      (hne : w ≠ []) (hw : ∀ c ∈ w, isAsciiWord c = true)
      (hmax : ∀ c ∈ cs.head?, isAsciiWord c = false) (h : Cuts cs ts) :
      Cuts (w ++ cs) (.word w :: ts)
  | quoted {q : Char} {body cs : List Char} {ts : List Token}
      (hq : isQuote q = true) (hbody : q ∉ body) (h : Cuts cs ts) :
      Cuts (q :: (body ++ q :: cs)) (.quoted (q :: (body ++ [q])) :: ts)
  | unclosed {q : Char} {body : List Char}
      (hq : isQuote q = true) (hbody : q ∉ body) :
      Cuts (q :: body) [.quoted (q :: body)]
  | sign {c : Char} {cs : List Char} {ts : List Token}
      (hwhite : isWhite c = false) (hquote : isQuote c = false)
        (hword : isAsciiWord c = false) (h : Cuts cs ts) :
      Cuts (c :: cs) (.sign c :: ts)

theorem isAsciiWord_bounds {c : Char} (h : isAsciiWord c = true) :
    (0x30 ≤ c.toNat ∧ c.toNat ≤ 0x39) ∨ (0x41 ≤ c.toNat ∧ c.toNat ≤ 0x5a) ∨
    c.toNat = 0x5f ∨ (0x61 ≤ c.toNat ∧ c.toNat ≤ 0x7a) := by
  delta isAsciiWord Char.isAlphanum Char.isAlpha Char.isUpper Char.isLower
    Char.isDigit at h
  simp only [Bool.or_eq_true, Bool.and_eq_true, decide_eq_true_eq, beq_iff_eq,
    ge_iff_le] at h
  rcases h with ((h | h) | h) | rfl
  · exact .inr (.inl h)
  · exact .inr (.inr (.inr h))
  · exact .inl h
  · exact .inr (.inr (.inl rfl))

theorem isWhite_of_isAsciiWord {c : Char} (h : isAsciiWord c = true) :
    isWhite c = false := by
  have hb := isAsciiWord_bounds h
  rw [isWhite, Text.white]
  simp only [Text.Ranges.has, Bool.and_eq_false_iff, Bool.or_eq_false_iff,
    decide_eq_false_iff_not]
  omega

theorem isQuote_of_isAsciiWord {c : Char} (h : isAsciiWord c = true) :
    isQuote c = false := by
  have hb := isAsciiWord_bounds h
  simp only [isQuote, Bool.or_eq_false_iff, beq_eq_false_iff_ne]
  refine ⟨⟨?_, ?_⟩, ?_⟩ <;> rintro rfl <;> revert hb <;> decide

theorem isWhite_of_isQuote {c : Char} (h : isQuote c = true) :
    isWhite c = false := by
  simp only [isQuote, Bool.or_eq_true, beq_iff_eq] at h
  rcases h with (rfl | rfl) | rfl <;> decide

/-- An ASCII word character is a word character of any script. -/
theorem isWord_of_isAsciiWord {c : Char} (h : isAsciiWord c = true) :
    isWord c = true := by
  have hb := isAsciiWord_bounds h
  have hcons : ∀ (lo hi : Nat) (rs : Text.Ranges) (n : Nat),
      Text.Ranges.has ((lo, hi) :: rs) n = true ↔
      lo ≤ n ∧ (n ≤ hi ∨ rs.has n = true) := by
    simp [Text.Ranges.has]
  rw [isWord, Text.word, hcons, hcons, hcons, hcons]
  rcases hb with hb | hb | hb | hb
  · exact ⟨by omega, .inl (by omega)⟩
  · exact ⟨by omega, .inr ⟨by omega, .inl (by omega)⟩⟩
  · exact ⟨by omega, .inr ⟨by omega, .inr ⟨by omega, .inl (by omega)⟩⟩⟩
  · exact ⟨by omega,
      .inr ⟨by omega, .inr ⟨by omega, .inr ⟨by omega, .inl (by omega)⟩⟩⟩⟩

namespace Cut

theorem tokens_white {c : Char} (h : isWhite c = true) (cs : List Char) :
    Cut.none.tokens (c :: cs) = Cut.none.tokens cs := by
  simp [tokens, feed, start, h]

theorem tokens_sign {c : Char} (hwhite : isWhite c = false)
    (hquote : isQuote c = false)
    (hword : isAsciiWord c = false) (cs : List Char) :
    Cut.none.tokens (c :: cs) = .sign c :: Cut.none.tokens cs := by
  simp [tokens, feed, start, hwhite, hquote, hword]

/-- A word goes on as long as it can. -/
theorem tokens_word {w : List Char}
    (hw : ∀ c ∈ w, isAsciiWord c = true) {cs : List Char}
    (hmax : ∀ c ∈ cs.head?, isAsciiWord c = false) (rev : List Char) :
    (Cut.word rev).tokens (w ++ cs) = .word (rev.reverse ++ w) ::
      Cut.none.tokens cs := by
  induction w generalizing rev with
  | nil =>
      cases cs with
      | nil => simp [tokens, flush]
      | cons c cs =>
          have hc : isAsciiWord c = false := hmax c rfl
          simp [tokens, feed, hc]
  | cons c w ih =>
      have hc : isAsciiWord c = true := hw c List.mem_cons_self
      have := ih (fun d hd => hw d (List.mem_cons_of_mem _ hd)) (c :: rev)
      simpa [tokens, feed, hc] using this

/-- A literal goes on up to its closing quote. -/
theorem tokens_quoted {q : Char} {body : List Char}
    (hbody : q ∉ body) (rev cs : List Char) :
    (Cut.quoted q rev).tokens (body ++ q :: cs) =
      .quoted (rev.reverse ++ body ++ [q]) :: Cut.none.tokens cs := by
  induction body generalizing rev with
  | nil => simp [tokens, feed]
  | cons c body ih =>
      have hne : c ≠ q := fun heq => hbody (heq ▸ List.mem_cons_self)
      have := ih (fun hmem => hbody (List.mem_cons_of_mem _ hmem)) (c :: rev)
      simpa [tokens, feed, hne] using this

/-- A literal without a closing quote goes on to the end. -/
theorem tokens_unclosed {q : Char} {body : List Char}
    (hbody : q ∉ body) (rev : List Char) :
    (Cut.quoted q rev).tokens body = [.quoted (rev.reverse ++ body)] := by
  induction body generalizing rev with
  | nil => simp [tokens, flush]
  | cons c body ih =>
      have hne : c ≠ q := fun heq => hbody (heq ▸ List.mem_cons_self)
      have := ih (fun hmem => hbody (List.mem_cons_of_mem _ hmem)) (c :: rev)
      simpa [tokens, feed, hne] using this

theorem tokens_quote {q : Char} (hq : isQuote q = true) (cs : List Char) :
    Cut.none.tokens (q :: cs) = (Cut.quoted q [q]).tokens cs := by
  simp [tokens, feed, start, isWhite_of_isQuote hq, hq]

theorem tokens_letter {c : Char} (hc : isAsciiWord c = true) (cs : List Char) :
    Cut.none.tokens (c :: cs) = (Cut.word [c]).tokens cs := by
  simp [tokens, feed, start, isWhite_of_isAsciiWord hc,
    isQuote_of_isAsciiWord hc, hc]

end Cut

theorem Cuts.eq_ofTemplate {cs : List Char} {ts : List Token} (h : Cuts cs ts) :
    ofTemplate cs = ts := by
  rw [ofTemplate]
  induction h with
  | nil => rfl
  | white hc _ ih => rw [Cut.tokens_white hc, ih]
  | @word w cs ts hne hw hmax _ ih =>
      cases w with
      | nil => exact absurd rfl hne
      | cons c w =>
          rw [List.cons_append, Cut.tokens_letter (hw c List.mem_cons_self),
            Cut.tokens_word (fun d hd => hw d (List.mem_cons_of_mem _ hd)) hmax,
            ih]
          rfl
  | quoted hq hbody _ ih =>
      rw [Cut.tokens_quote hq, Cut.tokens_quoted hbody, ih]
      rfl
  | unclosed hq hbody =>
      rw [Cut.tokens_quote hq, Cut.tokens_unclosed hbody]
      rfl
  | sign hwhite hquote hword _ ih =>
      rw [Cut.tokens_sign hwhite hquote hword, ih]

theorem exists_cuts (cs : List Char) : ∃ ts, Cuts cs ts := by
  induction hn : cs.length using Nat.strongRecOn generalizing cs with
  | ind n ih =>
      cases cs with
      | nil => exact ⟨[], .nil⟩
      | cons c cs =>
          have hrest : ∀ ds : List Char, ds.length ≤ cs.length →
              ∃ ts, Cuts ds ts := by
            intro ds hds
            exact ih ds.length (by rw [← hn, List.length_cons]; omega) ds rfl
          by_cases hwhite : isWhite c = true
          · obtain ⟨ts, hts⟩ := hrest cs (Nat.le_refl _)
            exact ⟨ts, .white hwhite hts⟩
          by_cases hquote : isQuote c = true
          · by_cases hmem : c ∈ cs
            · obtain ⟨body, ds, rfl, hbody⟩ := List.eq_append_cons_of_mem hmem
              obtain ⟨ts, hts⟩ := hrest ds (by simp; omega)
              exact ⟨_, .quoted hquote hbody hts⟩
            · exact ⟨_, .unclosed hquote hmem⟩
          by_cases hword : isAsciiWord c = true
          · obtain ⟨ts, hts⟩ := hrest (cs.dropWhile isAsciiWord)
              (List.dropWhile_sublist _).length_le
            have hcut : Cuts
                ((c :: cs.takeWhile isAsciiWord) ++ cs.dropWhile isAsciiWord)
                (.word (c :: cs.takeWhile isAsciiWord) :: ts) := by
              refine .word (List.cons_ne_nil _ _) ?_ ?_ hts
              · intro d hd
                rcases List.mem_cons.mp hd with rfl | hd
                · exact hword
                · exact List.all_eq_true.mp List.all_takeWhile d hd
              · intro d hd
                have := List.head?_dropWhile_not isAsciiWord cs
                rw [hd] at this
                simpa using this
            rw [List.cons_append, List.takeWhile_append_dropWhile] at hcut
            exact ⟨_, hcut⟩
          · obtain ⟨ts, hts⟩ := hrest cs (Nat.le_refl _)
            exact ⟨_, .sign (by simpa using hwhite) (by simpa using hquote)
              (by simpa using hword) hts⟩

/-- The tokens of a template are the ones it is cut into. -/
theorem cuts_iff {cs : List Char} {ts : List Token} :
    Cuts cs ts ↔ ofTemplate cs = ts := by
  constructor
  · exact Cuts.eq_ofTemplate
  · rintro rfl
    obtain ⟨ts, hts⟩ := exists_cuts cs
    rw [hts.eq_ofTemplate]
    exact hts

/-- A word of a template is not empty, and consists of ASCII word characters. -/
theorem Cuts.word_spec {cs : List Char} {ts : List Token}
    (h : Cuts cs ts) {w : List Char}
    (hmem : Token.word w ∈ ts) : w ≠ [] ∧ ∀ c ∈ w, isAsciiWord c = true := by
  induction h with
  | nil => cases hmem
  | white _ _ ih => exact ih hmem
  | word hne hw _ _ ih =>
      rcases List.mem_cons.mp hmem with heq | hmem
      · cases heq
        exact ⟨hne, hw⟩
      · exact ih hmem
  | quoted _ _ _ ih | sign _ _ _ _ ih =>
      rcases List.mem_cons.mp hmem with heq | hmem
      · cases heq
      · exact ih hmem
  | unclosed => simp at hmem

end Codemod.Token
