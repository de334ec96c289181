import Codemod.Proofs.Layout
import Mathlib.Data.List.DropRight

/-!
# Templates in any spacing

A template stands for its tokens with any white space between them, and the
text of a template is such a text itself. Two words would run together without
white space, so there some has to be. But the pattern asks for more: a template
is cut into words of ASCII characters, and the boundary of a word looks at the
word characters of every script. A sign that is such a character clings to a
word next to it. `Spaced` is a text of tokens, with white space at least where
two tokens would run together; what that means is a parameter, since
`bothWords` is what a template promises and `clings` is what its pattern keeps.
-/

namespace Codemod

open Pattern
open Text (isWhite isWord isAsciiWord)

namespace Token

/-- Two words. -/
def bothWords : Token → Token → Bool
  | .word _, .word _ => true
  | _, _ => false

/-- Two words, or a word and a sign that is a word character. -/
def clings : Token → Token → Bool
  | .word _, .word _ => true
  | .word _, .sign c | .sign c, .word _ => isWord c
  | _, _ => false

/-- The literal has its closing quote. -/
def Closed (t : Token) : Prop :=
  ∀ cs, t = .quoted cs → ∃ q body, isQuote q = true ∧ cs = q :: (body ++ [q])

/-- The token begins like a token: a word with a letter, a literal with a
quote, and a sign is not white space. -/
def Begun : Token → Prop
  | .word cs => cs ≠ [] ∧ ∀ c ∈ cs, isAsciiWord c = true
  | .quoted cs => ∃ q body, isQuote q = true ∧ cs = q :: body
  | .sign c => isWhite c = false

/-- The tokens begin like tokens, and no literal but the last one goes on to
the end. -/
structure Row (ts : List Token) : Prop where
  begun : ∀ t ∈ ts, t.Begun
  closed : ts.IsChain fun t _ => t.Closed

theorem Row.tail {t : Token} {ts : List Token} (h : Row (t :: ts)) : Row ts :=
  ⟨fun u hu => h.begun u (List.mem_cons_of_mem _ hu), h.closed.of_cons⟩

theorem Row.cons {t : Token} {ts : List Token}
    (h : Row ts) (ht : t.Begun) (hclosed : t.Closed) :
    Row (t :: ts) := by
  refine ⟨List.forall_mem_cons.mpr ⟨ht, h.begun⟩, ?_⟩
  cases ts with
  | nil => exact .singleton t
  | cons u ts => exact List.isChain_cons_cons.mpr ⟨hclosed, h.closed⟩

theorem Cuts.row {cs : List Char} {ts : List Token} (h : Cuts cs ts) :
    Row ts := by
  induction h with
  | nil => exact ⟨fun t ht => absurd ht List.not_mem_nil, .nil⟩
  | white _ _ ih => exact ih
  | word hne hw _ _ ih => exact ih.cons ⟨hne, hw⟩ nofun
  | @quoted q body _ _ hq _ _ ih =>
      refine ih.cons ⟨q, body ++ [q], hq, rfl⟩ fun _ heq => ?_
      cases heq
      exact ⟨q, body, hq, rfl⟩
  | @unclosed q body hq _ =>
      refine ⟨fun t ht => ?_, .singleton _⟩
      rw [List.mem_singleton.mp ht]
      exact ⟨q, body, hq, rfl⟩
  | sign hwhite _ _ _ ih => exact ih.cons hwhite nofun

theorem Begun.sound {t : Token} (h : t.Begun) : t.Sound := by
  rintro w rfl
  exact h

theorem Begun.text_eq {t : Token} (h : t.Begun) :
    ∃ c w, t.text = c :: w ∧ isWhite c = false := by
  cases t with
  | word cs =>
      obtain ⟨hne, hw⟩ := h
      cases cs with
      | nil => exact absurd rfl hne
      | cons c w =>
          exact ⟨c, w, rfl, isWhite_of_isAsciiWord (hw c List.mem_cons_self)⟩
  | quoted cs =>
      obtain ⟨q, body, hq, rfl⟩ := h
      exact ⟨q, body, rfl, isWhite_of_isQuote hq⟩
  | sign c => exact ⟨c, [], rfl, h⟩

theorem Begun.text_ne_nil {t : Token} (h : t.Begun) : t.text ≠ [] := by
  obtain ⟨c, w, heq, -⟩ := h.text_eq
  rw [heq]
  exact List.cons_ne_nil c w

theorem isWord_of_isQuote {c : Char} (h : isQuote c = true) :
    isWord c = false := by
  simp only [isQuote, Bool.or_eq_true, beq_iff_eq] at h
  rcases h with (rfl | rfl) | rfl <;> decide +kernel

/-- A word does not touch a word character of the other token. -/
def Parted (t u : Token) : Prop :=
  (∀ w, t = .word w → Anchor.isWord? u.text.head? = false) ∧
    ∀ w, u = .word w → Anchor.isWord? t.text.getLast? = false

/-- The tokens of a template are parted unless they cling together. -/
theorem parted_iff {t u : Token} (ht : t.Begun)
    (hu : u.Begun) (hclosed : t.Closed) :
    t.Parted u ↔ t.clings u = false := by
  have hword : ∀ {w : List Char} {c : Char}, (Token.word w).Begun → c ∈ w →
      Anchor.isWord? (some c) = true :=
    fun hw hc => isWord_of_isAsciiWord (hw.2 _ hc)
  cases t with
  | word w =>
      cases u with
      | word v =>
          refine ⟨fun h => ?_, fun h => by cases h⟩
          obtain ⟨c, hc⟩ :=
            Option.isSome_iff_exists.mp (List.isSome_head?.mpr hu.1)
          have hhead : Anchor.isWord? v.head? = false := h.1 w rfl
          rw [hc, hword hu (List.mem_of_mem_head? hc)] at hhead
          cases hhead
      | quoted cs =>
          obtain ⟨q, body, hq, rfl⟩ := hu
          exact ⟨fun _ => rfl,
            fun _ => ⟨fun _ _ => isWord_of_isQuote hq, nofun⟩⟩
      | sign c => exact ⟨fun h => h.1 w rfl, fun h => ⟨fun _ _ => h, nofun⟩⟩
  | quoted cs =>
      obtain ⟨q, body, hq, rfl⟩ := hclosed cs rfl
      have hlast : Anchor.isWord? (q :: (body ++ [q])).getLast? = false := by
        rw [← List.cons_append, List.getLast?_concat]
        exact isWord_of_isQuote hq
      have hparted : (Token.quoted (q :: (body ++ [q]))).Parted u :=
        ⟨nofun, fun _ _ => hlast⟩
      cases u <;> exact ⟨fun _ => rfl, fun _ => hparted⟩
  | sign c =>
      cases u with
      | word v => exact ⟨fun h => h.2 v rfl, fun h => ⟨nofun, fun _ _ => h⟩⟩
      | quoted | sign =>
          exact ⟨fun _ => rfl, fun _ => ⟨nofun, nofun⟩⟩

end Token

/-- The text consists of the tokens, in order, with white space between them
that may be missing unless the two tokens are joined without it. -/
inductive Spaced (joined : Token → Token → Bool) :
    List Token → List Char → Prop where
  | nil : Spaced joined [] []
  | last (t : Token) : Spaced joined [t] t.text
  | cons {t u : Token} {ts : List Token} {gap w : List Char}
      (hwhite : ∀ c ∈ gap, isWhite c = true)
      (hgap : gap = [] → joined t u = false) (h : Spaced joined (u :: ts) w) :
      Spaced joined (t :: u :: ts) (t.text ++ (gap ++ w))

/-- If no sign is a word character, only words cling together. -/
theorem Spaced.clings {ts : List Token} {w : List Char}
    (h : Spaced Token.bothWords ts w)
    (hts : ∀ c, .sign c ∈ ts → isWord c = false) :
    Spaced Token.clings ts w := by
  induction h with
  | nil => exact .nil
  | last t => exact .last t
  | @cons t u ts gap w hwhite hgap _ ih =>
      have hclings : t.bothWords u = false → t.clings u = false := by
        intro hwords
        cases t with
        | word v =>
            cases u with
            | word => cases hwords
            | sign c => exact hts c (List.mem_cons_of_mem _ List.mem_cons_self)
            | quoted => rfl
        | sign c =>
            cases u with
            | word => exact hts c List.mem_cons_self
            | sign | quoted => rfl
        | quoted => rfl
      exact .cons hwhite (fun h => hclings (hgap h))
        (ih fun c hc => hts c (List.mem_cons_of_mem _ hc))

/-! ## Where tokens are written -/

section

variable {text : Array Char} {i j k : Nat} {t : Token} {ts : List Token}

theorem Written.first (h : Written text (t :: ts) i j) :
    ∃ k, t.StandsAt text i k ∧ k ≤ j ∧ j ≤ text.size := by
  generalize hts : t :: ts = us at h
  induction h generalizing t ts with
  | @last _ _ j ht =>
      cases hts
      exact ⟨j, ht, Nat.le_refl j, ht.le_size⟩
  | @cons _ _ _ _ p q _ ht hpq _ _ ih =>
      cases hts
      obtain ⟨k, hu, hk, hsize⟩ := ih rfl
      have hle := hu.le
      exact ⟨p, ht, by omega, hsize⟩

theorem Written.bounds (h : Written text ts i j) : i ≤ j ∧ j ≤ text.size := by
  induction h with
  | last ht => exact ⟨ht.le, ht.le_size⟩
  | cons ht hpq _ _ ih =>
      have hle := ht.le
      omega

theorem Written.lt (h : Written text ts i j) (hts : ∀ t ∈ ts, t.Begun) :
    i < j := by
  cases ts with
  | nil => cases h
  | cons t ts =>
      obtain ⟨k, hstands, hk, -⟩ := h.first
      have hlen := length_slice hstands.le hstands.le_size
      have hpos :=
        List.length_pos_iff.mpr (hts t List.mem_cons_self).text_ne_nil
      rw [hstands.text_eq] at hlen
      omega

theorem Written.front {us : List Token}
    (h : Written text (ts ++ us) i j) (hne : ts ≠ []) :
    ∃ k, Written text ts i k := by
  induction ts generalizing i with
  | nil => exact absurd rfl hne
  | cons t ts ih =>
      cases ts with
      | nil =>
          obtain ⟨k, hstands, -, -⟩ := h.first
          exact ⟨k, .last hstands⟩
      | cons u ts =>
          cases h with
          | cons ht hpq hwhite h =>
              obtain ⟨k, hrest⟩ := ih h (List.cons_ne_nil u ts)
              exact ⟨k, .cons ht hpq hwhite hrest⟩

/-- The text goes on with the first token where tokens are written. -/
theorem Written.begins (h : Written text ts i j) (hhead : ts.head? = some t) :
    t.text <+: slice text i text.size := by
  cases ts with
  | nil => cases hhead
  | cons t' ts =>
      cases hhead
      obtain ⟨k, hstands, -, -⟩ := h.first
      refine ⟨slice text k text.size, ?_⟩
      rw [← hstands.text_eq, slice_append hstands.le hstands.le_size]

theorem getElem?_of_begins {d : Char} {w : List Char}
    (h : d :: w <+: slice text i text.size) :
    text[i]? = some d := by
  obtain ⟨v, hv⟩ := h
  have hi : i < text.size := by
    refine Nat.lt_of_not_le fun hge => ?_
    rw [slice, Array.extract_empty_of_size_le_start hge] at hv
    cases hv
  obtain ⟨c, hc, hcons⟩ := slice_eq_cons hi (Nat.le_refl _)
  rw [hcons, List.cons_append] at hv
  rw [hc, (List.cons.inj hv).1]

theorem Written.head {d : Char} {w : List Char} (h : Written text ts i j)
    (hhead : ts.head? = some t) (ht : t.text = d :: w) : text[i]? = some d :=
  getElem?_of_begins (ht ▸ h.begins hhead)

theorem Written.final (h : Written text ts i j) (hlast : ts.getLast? = some t) :
    ∃ k, i ≤ k ∧ t.StandsAt text k j := by
  induction h with
  | @last _ i _ ht =>
      cases hlast
      exact ⟨i, Nat.le_refl i, ht⟩
  | @cons t' u ts i p q j ht hpq _ _ ih =>
      rw [List.getLast?_cons_cons] at hlast
      obtain ⟨k, hk, hstands⟩ := ih hlast
      have hle := ht.le
      exact ⟨k, by omega, hstands⟩

theorem Token.StandsAt.stop_eq (h : t.StandsAt text i j) :
    j = i + t.text.length := by
  have hle := h.le
  rw [← h.text_eq, length_slice hle h.le_size]
  omega

theorem Token.StandsAt.not_white (h : t.StandsAt text i j) (ht : t.Begun) :
    ∃ c, text[i]? = some c ∧ isWhite c = false ∧ t.text.head? = text[i]? := by
  obtain ⟨c, w, heq, hc⟩ := ht.text_eq
  have hhead := head?_slice_or h.le h.le_size
  rw [h.text_eq, heq] at hhead
  exact ⟨c, hhead.symm, hc, by rw [heq]; exact hhead⟩

/-- From a place on tokens are written in one way at most. -/
theorem Written.stop_unique (h : Written text ts i j) (hts : ∀ t ∈ ts, t.Begun)
    (h' : Written text ts i k) : j = k := by
  induction h with
  | last ht =>
      cases h' with
      | last ht' => rw [ht.stop_eq, ht'.stop_eq]
  | @cons t u ts i p q j ht hpq hwhite hrest ih =>
      cases h' with
      | @cons _ _ _ _ p' q' _ ht' hpq' hwhite' hrest' =>
          have hp : p' = p := by rw [ht.stop_eq, ht'.stop_eq]
          subst hp
          have hu := hts u (List.mem_cons_of_mem _ List.mem_cons_self)
          obtain ⟨r, hfirst, -, -⟩ := hrest.first
          obtain ⟨r', hfirst', -, -⟩ := hrest'.first
          obtain ⟨c, hc, hcwhite, -⟩ := hfirst.not_white hu
          obtain ⟨c', hc', hcwhite', -⟩ := hfirst'.not_white hu
          have hnot : ∀ {x y : Nat} {c : Char}, p' ≤ x → x < y → y ≤ text.size →
              (∀ d ∈ slice text p' y, isWhite d = true) → text[x]? = some c →
              isWhite c = false → False := by
            intro x y c hpx hxy hy hall hx hcx
            cases (hall c (mem_slice hx hpx hxy hy)).symm.trans hcx
          have hq : q = q' := by
            rcases Nat.lt_trichotomy q q' with hlt | heq | hlt
            · have hsize := hfirst'.le_size
              have hle := hfirst'.le
              exact (hnot hpq hlt (by omega) hwhite' hc hcwhite).elim
            · exact heq
            · have hsize := hfirst.le_size
              have hle := hfirst.le
              exact (hnot hpq' hlt (by omega) hwhite hc' hcwhite').elim
          subst hq
          exact ih (fun x hx => hts x (List.mem_cons_of_mem _ hx)) hrest'

/-- Where tokens are written, they have white space between them wherever they
cling together. Without white space the second token stands where the first one
ends, so each of the two is next to the other one, and a word has no word
character next to it. -/
theorem Written.spaced (h : Written text ts i j) (hts : Token.Row ts) :
    Spaced Token.clings ts (slice text i j) := by
  induction h with
  | last ht =>
      rw [ht.text_eq]
      exact .last _
  | @cons t u ts i p q j ht hpq hwhite hrest ih =>
      have hu : u.Begun :=
        hts.begun u (List.mem_cons_of_mem _ List.mem_cons_self)
      obtain ⟨r, hfirst, hr, hj⟩ := hrest.first
      have hqr := hfirst.le
      rw [← slice_append ht.le (show p ≤ j by omega), ht.text_eq,
        ← slice_append hpq (by omega)]
      refine .cons hwhite (fun hgap => ?_) (ih hts.tail)
      have heq : p = q := by
        have hlen := length_slice hpq (show q ≤ text.size by omega)
        rw [hgap, List.length_nil] at hlen
        omega
      subst heq
      have hclosed := (List.isChain_cons_cons.mp hts.closed).1
      refine (Token.parted_iff (hts.begun t List.mem_cons_self) hu hclosed).mp
        ⟨?_, ?_⟩
      · rintro w rfl
        obtain ⟨c, -, -, hhead⟩ := hfirst.not_white hu
        rw [hhead]
        exact (ht.alone w rfl).2
      · rintro w rfl
        have hbefore := (hfirst.alone w rfl).1
        rw [← getLast?_slice_or ht.le ht.le_size, ht.text_eq] at hbefore
        obtain ⟨c, hc⟩ := Option.isSome_iff_exists.mp (List.getLast?_isSome.mpr
          (hts.begun t List.mem_cons_self).text_ne_nil)
        rw [hc] at hbefore ⊢
        exact hbefore

theorem Spaced.head? {joined : Token → Token → Bool} {w : List Char}
    (h : Spaced joined (t :: ts) w)
    (ht : t.Begun) : w.head? = t.text.head? := by
  obtain ⟨c, hc⟩ :=
    Option.isSome_iff_exists.mp (List.isSome_head?.mpr ht.text_ne_nil)
  cases h with
  | last => rfl
  | cons => rw [List.head?_append, hc, Option.some_or]

/-- Tokens with white space wherever they cling together are written, if
nothing clings to their ends. -/
theorem Spaced.written {w : List Char} (h : Spaced Token.clings ts w)
    (hne : ts ≠ []) (hts : Token.Row ts) (hij : i ≤ j) (hj : j ≤ text.size)
    (hw : slice text i j = w) (hbefore : ∀ v, ts.head? = some (.word v) →
      Anchor.isWord? (before? text i) = false)
    (hafter : Anchor.isWord? text[j]? = false) : Written text ts i j := by
  induction h generalizing i with
  | nil => exact absurd rfl hne
  | last t =>
      exact .last
        ⟨hij, hj, hw, fun v ht => ⟨hbefore v (congrArg some ht), hafter⟩⟩
  | @cons t u ts gap w hwhite hgap hrest ih =>
      have ht : t.Begun := hts.begun t List.mem_cons_self
      have hu : u.Begun :=
        hts.begun u (List.mem_cons_of_mem _ List.mem_cons_self)
      have hparted :=
        Token.parted_iff ht hu (List.isChain_cons_cons.mp hts.closed).1
      obtain ⟨hpj, hfront, hback, hlast, hhead⟩ := slice_cut hij hj hw
      obtain ⟨hqj, hwhites, hrow, hlast', -⟩ := slice_cut hpj hj hback
      have hip : i ≤ i + t.text.length := Nat.le_add_right _ _
      have hpq : i + t.text.length ≤ i + t.text.length + gap.length :=
        Nat.le_add_right _ _
      generalize i + t.text.length =
        p at hpj hfront hhead hqj hwhites hrow hlast hlast' hip hpq
      generalize p + gap.length = q at hqj hwhites hrow hlast' hpq
      obtain ⟨c, hc⟩ :=
        Option.isSome_iff_exists.mp (List.getLast?_isSome.mpr ht.text_ne_nil)
      have hnext : ∀ v, t = .word v → Anchor.isWord? text[p]? = false := by
        intro v hv
        rw [hhead]
        cases gap with
        | cons d gap => exact isWord_of_isWhite (hwhite d List.mem_cons_self)
        | nil =>
            have hfirst := (hparted.mpr (hgap rfl)).1 v hv
            obtain ⟨d, hd⟩ :=
              Option.isSome_iff_exists.mp (List.isSome_head?.mpr hu.text_ne_nil)
            rw [List.nil_append, hrest.head? hu, hd]
            rw [hd] at hfirst
            exact hfirst
      have hprevious : ∀ v, u = .word v →
          Anchor.isWord? (before? text q) = false := by
        intro v hv
        rw [hlast', hlast, hc]
        cases hgaplast : gap.getLast? with
        | some d =>
            exact isWord_of_isWhite (hwhite d (List.mem_of_getLast? hgaplast))
        | none =>
            have hfirst := (hparted.mpr
              (hgap (List.getLast?_eq_none_iff.mp hgaplast))).2 v hv
            rw [hc] at hfirst
            exact hfirst
      refine .cons ⟨hip, by omega, hfront,
        fun v hv => ⟨hbefore v (congrArg some hv), hnext v hv⟩⟩
        hpq (by rw [hwhites]; exact hwhite) ?_
      exact ih (List.cons_ne_nil u ts) hts.tail hqj hrow
        fun v hv => hprevious v (Option.some.inj hv)

end

/-! ## The text of a template itself -/

/-- The text without the white space at its ends. -/
def trim (w : List Char) : List Char :=
  (w.dropWhile isWhite).rdropWhile isWhite

theorem trim_append {u w v : List Char} (hu : ∀ c ∈ u, isWhite c = true)
    (hv : ∀ c ∈ v, isWhite c = true) (hhead : ∀ c ∈ w.head?, isWhite c = false)
    (hlast : ∀ c ∈ w.getLast?, isWhite c = false) :
    trim (u ++ (w ++ v)) = w := by
  have hback : ∀ v : List Char, (∀ c ∈ v, isWhite c = true) →
      (w ++ v).rdropWhile isWhite = w := by
    intro v
    induction v using List.reverseRecOn with
    | nil =>
        intro _
        rw [List.append_nil, List.rdropWhile_eq_self_iff]
        intro hne
        rw [hlast _ (List.getLast?_eq_some_getLast hne)]
        decide
    | append_singleton v c ih =>
        intro hv
        rw [← List.append_assoc, List.rdropWhile_concat_pos _ _ _
          (hv c (List.mem_append_right _ List.mem_cons_self))]
        exact ih fun d hd => hv d (List.mem_append_left _ hd)
  rw [trim, List.dropWhile_append_of_pos hu]
  cases w with
  | nil =>
      rw [List.nil_append, List.dropWhile_eq_nil_iff.mpr hv,
        List.rdropWhile_nil]
  | cons c w =>
      have hc : ¬ isWhite c = true := by
        rw [hhead c rfl]
        decide
      rw [List.cons_append, List.dropWhile_cons_of_neg hc]
      exact hback v hv

namespace Token

theorem Closed.last {t : Token} (hclosed : t.Closed) (ht : t.Begun) :
    ∃ c, t.text.getLast? = some c ∧ isWhite c = false := by
  cases t with
  | word cs =>
      obtain ⟨c, hc⟩ :=
        Option.isSome_iff_exists.mp (List.getLast?_isSome.mpr ht.1)
      exact ⟨c, hc, isWhite_of_isAsciiWord (ht.2 c (List.mem_of_getLast? hc))⟩
  | quoted cs =>
      obtain ⟨q, body, hq, rfl⟩ := hclosed cs rfl
      refine ⟨q, ?_, isWhite_of_isQuote hq⟩
      show (q :: (body ++ [q])).getLast? = some q
      rw [← List.cons_append, List.getLast?_concat]
  | sign c => exact ⟨c, rfl, ht⟩

end Token

section

variable {joined : Token → Token → Bool} {t : Token} {ts : List Token}
  {cs w : List Char}

theorem Spaced.getLast? (h : Spaced joined ts w)
    (hts : Token.Row ts) (hclosed : ∀ t ∈ ts, t.Closed) :
    ∀ c ∈ w.getLast?, isWhite c = false := by
  induction h with
  | nil => exact fun c hc => by cases hc
  | last t =>
      obtain ⟨d, hd, hwhite⟩ :=
        (hclosed t List.mem_cons_self).last (hts.begun t List.mem_cons_self)
      intro c hc
      cases hd.symm.trans hc
      exact hwhite
  | @cons t u ts gap w _ _ hrest ih =>
      have hne : w ≠ [] := by
        rintro rfl
        have hu := hts.begun u (List.mem_cons_of_mem _ List.mem_cons_self)
        exact hu.text_ne_nil (List.head?_eq_none_iff.mp (hrest.head? hu).symm)
      obtain ⟨d, hd⟩ :=
        Option.isSome_iff_exists.mp (List.getLast?_isSome.mpr hne)
      intro c hc
      rw [List.getLast?_append, List.getLast?_append, hd, Option.some_or,
        Option.some_or] at hc
      exact ih hts.tail (fun x hx => hclosed x (List.mem_cons_of_mem _ hx)) c
        (by rw [hd]; exact hc)

/-- The text stands for the tokens, with white space around it. -/
def Holds (joined : Token → Token → Bool) (ts : List Token) (cs : List Char) :
    Prop :=
  ∃ u w v, cs = u ++ (w ++ v) ∧ (∀ c ∈ u, isWhite c = true) ∧
    (∀ c ∈ v, isWhite c = true) ∧ Spaced joined ts w

theorem Holds.cons (h : Holds joined ts cs) (hts : Token.Row ts)
    (hjoin : ∀ u ∈ ts.head?, cs.head? = u.text.head? → joined t u = false) :
    Holds joined (t :: ts) (t.text ++ cs) := by
  obtain ⟨u, w, v, rfl, hu, hv, hw⟩ := h
  have hnone : ∀ c ∈ ([] : List Char), isWhite c = true :=
    fun c hc => absurd hc List.not_mem_nil
  cases ts with
  | nil =>
      cases hw
      refine ⟨[], t.text, u ++ ([] ++ v), rfl, hnone, fun c hc => ?_, .last t⟩
      exact (List.mem_append.mp hc).elim (hu c) (hv c)
  | cons t' ts =>
      refine ⟨[], t.text ++ (u ++ w), v, by simp, hnone, hv, .cons hu ?_ hw⟩
      rintro rfl
      have ht' := hts.begun t' List.mem_cons_self
      obtain ⟨c, hc⟩ :=
        Option.isSome_iff_exists.mp (List.isSome_head?.mpr ht'.text_ne_nil)
      refine hjoin t' rfl ?_
      rw [List.nil_append, List.head?_append, hw.head? ht', hc, Option.some_or]

theorem Token.Cuts.holds (h : Token.Cuts cs ts) (hclosed : ∀ t ∈ ts, t.Closed) :
    Holds Token.bothWords ts cs := by
  induction h with
  | nil =>
      exact ⟨[], [], [], rfl, List.forall_mem_nil _,
        List.forall_mem_nil _, .nil⟩
  | @white c _ _ hc _ ih =>
      obtain ⟨u, w, v, rfl, hu, hv, hw⟩ := ih hclosed
      exact ⟨c :: u, w, v, rfl, List.forall_mem_cons.mpr ⟨hc, hu⟩, hv, hw⟩
  | @word w cs ts hne hw hmax h ih =>
      refine (ih fun x hx => hclosed x (List.mem_cons_of_mem _ hx)).cons h.row
        fun u hu hhead => ?_
      cases u with
      | word v =>
          obtain ⟨hv, hletters⟩ := h.row.begun _ (List.mem_of_head? hu)
          obtain ⟨c, hc⟩ :=
            Option.isSome_iff_exists.mp (List.isSome_head?.mpr hv)
          have hletter := hmax c (by rw [hhead]; exact hc)
          rw [hletters c (List.mem_of_mem_head? hc)] at hletter
          cases hletter
      | quoted | sign => rfl
  | @quoted q body cs ts hq _ h ih =>
      have hrest :=
        (ih fun x hx => hclosed x (List.mem_cons_of_mem _ hx)).cons h.row
        (t := .quoted (q :: (body ++ [q]))) fun u _ _ => rfl
      have heq : q :: (body ++ q :: cs) =
          (Token.quoted (q :: (body ++ [q]))).text ++ cs := by
        show _ = (q :: (body ++ [q])) ++ cs
        rw [List.cons_append, List.append_assoc, List.singleton_append]
      rw [heq]
      exact hrest
  | @unclosed q body _ hbody =>
      obtain ⟨q', body', -, heq⟩ := hclosed _ List.mem_cons_self _ rfl
      obtain ⟨rfl, rfl⟩ := List.cons.inj heq
      exact absurd (List.mem_append_right _ List.mem_cons_self) hbody
  | @sign c cs ts _ _ _ h ih =>
      exact (ih fun x hx => hclosed x (List.mem_cons_of_mem _ hx)).cons h.row
        (t := .sign c) fun u _ _ => by cases u <;> rfl

/-- A template without an open literal is a text of its tokens, but for white
space at its ends. -/
theorem Token.Cuts.spaced_trim (h : Token.Cuts cs ts)
    (hclosed : ∀ t ∈ ts, t.Closed) :
    Spaced Token.bothWords ts (trim cs) := by
  obtain ⟨u, w, v, rfl, hu, hv, hw⟩ := h.holds hclosed
  rw [trim_append hu hv ?_ (hw.getLast? h.row hclosed)]
  · exact hw
  · cases ts with
    | nil =>
        cases hw
        exact fun c hc => by cases hc
    | cons t ts =>
        have ht := h.row.begun t List.mem_cons_self
        obtain ⟨c, _, htext, hc⟩ := ht.text_eq
        intro d hd
        rw [hw.head? ht, htext] at hd
        cases hd
        exact hc

end

/-! ## The pattern of a template -/

/-- A pattern that can match from the front of a text in one way at most finds
the whole text if it can match it. -/
theorem Pattern.found_whole_iff {p : Pattern} (hp : p.Whole) {text : Array Char}
    (hone : ∀ {j k}, p.CanMatch text 0 j → p.CanMatch text 0 k → j = k) :
    (∃ m, p.find? text 0 = some m ∧ m.start = 0 ∧ m.stop = text.size) ↔
      p.CanMatch text 0 text.size := by
  constructor
  · rintro ⟨m, hm, hstart, hstop⟩
    have hfirst := (find?_eq_some_iff hp).mp hm
    obtain ⟨t, ht, -⟩ := hfirst.preferred
    rw [hstart, hstop] at ht
    exact ⟨Nat.zero_le _, t, ht.way⟩
  · intro hcan
    have hspec := find?_spec hp text 0
    cases hfind : p.find? text 0 with
    | none =>
        rw [hfind] at hspec
        exact absurd hcan (hspec _ _ (Nat.le_refl 0))
    | some m =>
        rw [hfind] at hspec
        have hstart : m.start = 0 := by
          rcases Nat.eq_zero_or_pos m.start with hzero | hpos
          · exact hzero
          · exact absurd hcan (hspec.least _ _ (Nat.le_refl 0) hpos)
        obtain ⟨t, ht, -⟩ := hspec.preferred
        have hway := ht.way
        rw [hstart] at hway
        exact ⟨m, rfl, hstart, hone ⟨Nat.zero_le _, t, hway⟩ hcan⟩

namespace Shape

/-- The pattern of a template can be parsed, and means the tokens in a row. -/
theorem parse_code (template : String) (o : Options) :
    ∃ form : Form,
      Reader.parse o.flags (code template).pattern.toList = .ok (form, [none]) ∧
      Same form.regex (regex (fun _ => .empty) 1
        ((Token.ofTemplate template.toList).map .token)) := by
  have hreadable : ∀ p ∈ (code template).pieces,
      p.Readable (fun _ => .empty) o := by
    intro p hp
    obtain ⟨t, -, rfl⟩ := List.mem_map.mp hp
    trivial
  have hnames : (code template).pieces.flatMap Piece.names = [] := by
    rw [code, List.flatMap_map]
    exact List.flatMap_eq_nil_iff.mpr fun _ _ => rfl
  obtain ⟨form, hsame, hparse⟩ :=
    parse_pattern hreadable (by rw [hnames]; exact .nil)
  rw [hnames] at hparse
  exact ⟨form, hparse, hsame⟩

section

variable {slots : List Char → Regex} {n : Nat} {ts : List Token}

theorem stop_unique_of_tokens (hts : Token.Row ts)
    {text : Array Char} {i j k : Nat} {ms ns : Marks}
    (h : Takes text (regex slots n (ts.map .token)) i j ms)
    (h' : Takes text (regex slots n (ts.map .token)) i k ns) : j = k := by
  cases ts with
  | nil => exact (takes_empty.mp h).1.symm.trans (takes_empty.mp h').1
  | cons t ts =>
      have hsound : ∀ x ∈ t :: ts, x.Sound := fun x hx => (hts.begun x hx).sound
      have hne : t :: ts ≠ [] := List.cons_ne_nil t ts
      exact ((takes_tokens hne hsound).mp h).1.stop_unique hts.begun
        ((takes_tokens hne hsound).mp h').1

theorem takes_whole_iff_spaced (hts : Token.Row ts) (w : List Char) :
    (∃ ms,
      Takes w.toArray (regex slots n (ts.map .token)) 0 w.toArray.size ms) ↔
      Spaced Token.clings ts w := by
  have hwhole : slice w.toArray 0 w.toArray.size = w :=
    slice_zero_size w.toArray
  have hend : w.toArray[w.toArray.size]? = none :=
    Array.getElem?_eq_none (Nat.le_refl _)
  cases ts with
  | nil =>
      constructor
      · rintro ⟨ms, h⟩
        have hnil : w = [] :=
          List.length_eq_zero_iff.mp (takes_empty.mp h).1.symm
        rw [hnil]
        exact .nil
      · intro h
        cases h
        exact ⟨[], takes_empty.mpr ⟨rfl, Nat.le_refl _, rfl⟩⟩
  | cons t ts =>
      have hsound : ∀ x ∈ t :: ts, x.Sound := fun x hx => (hts.begun x hx).sound
      have hne : t :: ts ≠ [] := List.cons_ne_nil t ts
      constructor
      · rintro ⟨ms, h⟩
        have hspaced := ((takes_tokens hne hsound).mp h).1.spaced hts
        rw [hwhole] at hspaced
        exact hspaced
      · intro h
        have hwritten :=
          h.written hne hts (Nat.zero_le _) (Nat.le_refl _) hwhole
          (fun _ _ => rfl) (by rw [hend]; rfl)
        exact ⟨[], (takes_tokens hne hsound).mpr ⟨hwritten, rfl⟩⟩

end

/-- The pattern of a template finds a text as a whole exactly if the text
consists of the tokens with white space between them, at least where two cling
together. -/
theorem found_iff_spaced {template : String} {o : Options} {p : Pattern}
    (hp : Pattern.compile (code template).pattern o = .ok p) (w : List Char) :
    (∃ m, p.find? w.toArray 0 = some m ∧ m.start = 0 ∧ m.stop = w.length) ↔
      Spaced Token.clings (Token.ofTemplate template.toList) w := by
  have hcuts : Token.Cuts template.toList (Token.ofTemplate template.toList) :=
    Token.cuts_iff.mpr rfl
  obtain ⟨form, hparse, hsame⟩ := parse_code template o
  obtain ⟨form', names, hread, hp'⟩ := Pattern.compile_eq_ok hp
  cases (Reader.parse_of_read hread).symm.trans hparse
  have hengine : p.engine = .ofRegex (.group 0 form.regex) := by rw [hp']
  have hcan : ∀ {i j : Nat}, p.CanMatch w.toArray i j ↔ ∃ ms, Takes w.toArray
      (regex (fun _ => .empty) 1
        ((Token.ofTemplate template.toList).map .token)) i j ms :=
    canMatch_of_same hengine hsame
  rw [← takes_whole_iff_spaced hcuts.row, ← hcan]
  refine Pattern.found_whole_iff (whole_compile hp) fun h h' => ?_
  obtain ⟨ms, h⟩ := hcan.mp h
  obtain ⟨ns, h'⟩ := hcan.mp h'
  exact stop_unique_of_tokens hcuts.row h h'

/-- The pattern of a template can be parsed, and it is refused only if the form
that it has is too large. Else it finds a text as a whole exactly if the text
consists of the tokens with white space between them, at least where two cling
together; and only words cling together if no sign is a word character. The
template is a text of its tokens itself, but for its ends and unless it leaves
a literal open. -/
theorem code_finds_tokens (template : String) (o : Options) :
    (∃ (form : Form) (p : Pattern),
      Reader.parse o.flags (code template).pattern.toList = .ok (form, [none]) ∧
      p.engine = .ofRegex (.group 0 form.regex) ∧
      Pattern.compile (code template).pattern o =
        if form.fits then .ok p else .error .tooLarge) ∧
    (∀ p, Pattern.compile (code template).pattern o = .ok p → ∀ w : List Char,
      (∃ m, p.find? w.toArray 0 = some m ∧ m.start = 0 ∧ m.stop = w.length) ↔
        Spaced Token.clings (Token.ofTemplate template.toList) w) ∧
    ((∀ c, .sign c ∈ Token.ofTemplate template.toList → isWord c = false) →
      ∀ w : List Char,
      Spaced Token.bothWords (Token.ofTemplate template.toList) w →
        Spaced Token.clings (Token.ofTemplate template.toList) w) ∧
    ((∀ t ∈ Token.ofTemplate template.toList, t.Closed) →
      Spaced Token.bothWords (Token.ofTemplate template.toList)
        (trim template.toList)) := by
  obtain ⟨form, hparse, -⟩ := parse_code template o
  exact ⟨⟨form, _, hparse, rfl, compile_of_parse hparse⟩,
    fun p hp => found_iff_spaced hp, fun hplain w hw => hw.clings hplain,
    (Token.cuts_iff.mpr rfl).spaced_trim⟩

/-- A sign that is a word character, and a word: the template is a text of its
tokens, and its pattern does not find it. -/
theorem code_misses_accented :
    ∃ p, Pattern.compile (code "éa").pattern .plain = .ok p ∧
    (∀ t ∈ Token.ofTemplate "éa".toList, t.Closed) ∧
    Spaced Token.bothWords (Token.ofTemplate "éa".toList) "éa".toList ∧
    ¬ ∃ m, p.find? "éa".toList.toArray 0 = some m ∧ m.start = 0 ∧
    m.stop = 2 := by
  have htokens : Token.ofTemplate "éa".toList = [.sign 'é', .word ['a']] := by
    decide +kernel
  have hfits : (Pattern.compile (code "éa").pattern .plain).isOk = true := by
    decide +kernel
  cases hp : Pattern.compile (code "éa").pattern .plain with
  | error e =>
      rw [hp] at hfits
      cases hfits
  | ok p =>
      refine ⟨p, rfl, ?_, ?_, ?_⟩
      · rw [htokens]
        exact List.forall_mem_cons.mpr
          ⟨nofun, List.forall_mem_cons.mpr ⟨nofun, nofun⟩⟩
      · rw [htokens]
        have hlast : Spaced Token.bothWords [.word ['a']] ['a'] :=
          .last (.word ['a'])
        exact @Spaced.cons _ (.sign 'é') _ _ [] _ nofun (fun _ => rfl) hlast
      · rw [show 2 = "éa".toList.length from rfl, found_iff_spaced hp, htokens]
        generalize hw : "éa".toList = w
        intro h
        cases h with
        | @cons _ _ _ gap v _ hgap hrest =>
            have hlen := congrArg List.length hw
            cases hrest with
            | last =>
                rw [show "éa".toList.length = 2 from rfl, List.length_append,
                  List.length_append] at hlen
                cases gap with
                | nil => cases hgap rfl
                | cons c gap =>
                    rw [List.length_cons] at hlen
                    exact absurd hlen
                      (by show ¬ 2 = 1 + (gap.length + 1 + 1); omega)

end Shape

end Codemod
