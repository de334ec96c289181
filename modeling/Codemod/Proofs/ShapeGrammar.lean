import Codemod.Proofs.ShapeSpell
import Mathlib.Data.List.Forall2

/-!
# The grammar of a code shape

A shape that is made from code templates accepts the tokens of the templates in
any layout: one after the other, with white space between them or without. A
word must not run on into the text around it, so what stands next to it matters
even outside of the part that is matched. Nothing else is accepted.
-/

namespace Codemod

open Pattern Pattern.Reader

/-- The token stands in the text between two places. -/
structure Token.StandsAt (text : Array Char) (t : Token) (i j : Nat) :
    Prop where
  le : i ≤ j
  le_size : j ≤ text.size
  text_eq : slice text i j = t.text
  alone : ∀ w, t = .word w →
    Anchor.isWord? (before? text i) = false ∧ Anchor.isWord? text[j]? = false

/-- The tokens stand in the text between two places, one after the other, with
nothing but white space between them. -/
inductive Written (text : Array Char) : List Token → Nat → Nat → Prop where
  | last {t : Token} {i j : Nat} (ht : t.StandsAt text i j) :
      Written text [t] i j
  | cons {t u : Token} {ts : List Token} {i j k l : Nat}
      (ht : t.StandsAt text i j) (hjk : j ≤ k)
      (hwhite : ∀ c ∈ slice text j k, Text.isWhite c = true)
        (h : Written text (u :: ts) k l) :
      Written text (t :: u :: ts) i l

theorem takes_blanks {text : Array Char} {i j : Nat} {ms : Marks} :
    Takes text blanks i j ms ↔ i ≤ j ∧ j ≤ text.size ∧
      (∀ c ∈ slice text i j, Text.isWhite c = true) ∧ ms = [] := by
  constructor
  · rintro ⟨hle, hsize, h⟩
    exact ⟨hle, hsize, spells_run.mp h⟩
  · rintro ⟨hle, hsize, h⟩
    exact ⟨hle, hsize, spells_run.mpr h⟩

/-- Next to a word character a boundary tells that there is no other one. -/
theorem holds_wordBoundary_of_right {b : Option Char} {c : Char}
    (hc : Text.isWord c = true) :
    Anchor.wordBoundary.holds b (some c) = true ↔ Anchor.isWord? b = false := by
  simp [Anchor.holds, show Anchor.isWord? (some c) = true from hc]

theorem holds_wordBoundary_of_left {a : Option Char} {c : Char}
    (hc : Text.isWord c = true) :
    Anchor.wordBoundary.holds (some c) a = true ↔ Anchor.isWord? a = false := by
  simp [Anchor.holds, show Anchor.isWord? (some c) = true from hc]

theorem takes_word {text : Array Char} {w : List Char} (hne : w ≠ [])
    (hw : ∀ c ∈ w, Text.isAsciiWord c = true) {i j : Nat} {ms : Marks} :
    Takes text (Token.word w).regex i j ms ↔
    (Token.word w).StandsAt text i j ∧ ms = [] := by
  have hends : i ≤ j → j ≤ text.size → slice text i j = w →
      (Anchor.wordBoundary.holds (before? text i) text[i]? = true ↔
        Anchor.isWord? (before? text i) = false) ∧
      (Anchor.wordBoundary.holds (before? text j) text[j]? = true ↔
        Anchor.isWord? text[j]? = false) := by
    intro hle hsize hslice
    constructor
    · obtain ⟨c, hc⟩ := Option.isSome_iff_exists.mp (List.isSome_head?.mpr hne)
      rw [← head?_slice_or hle hsize, hslice, hc]
      exact holds_wordBoundary_of_right
        (Token.isWord_of_isAsciiWord (hw c (List.mem_of_mem_head? hc)))
    · obtain ⟨c, hc⟩ :=
        Option.isSome_iff_exists.mp (List.getLast?_isSome.mpr hne)
      rw [← getLast?_slice_or hle hsize, hslice, hc]
      exact holds_wordBoundary_of_left
        (Token.isWord_of_isAsciiWord (hw c (List.mem_of_mem_getLast? hc)))
  simp only [Token.regex, takes_seq, takes_look, takes_text]
  constructor
  · rintro ⟨_, _, _, ⟨rfl, -, hstart, rfl⟩,
      ⟨_, _, _, ⟨hle, hsize, hslice, rfl⟩, ⟨rfl, -, hstop, rfl⟩, rfl⟩, rfl⟩
    obtain ⟨hs, he⟩ := hends hle hsize hslice
    exact ⟨⟨hle, hsize, hslice, fun _ _ => ⟨hs.mp hstart, he.mp hstop⟩⟩, rfl⟩
  · rintro ⟨⟨hle, hsize, hslice, halone⟩, rfl⟩
    obtain ⟨hs, he⟩ := hends hle hsize hslice
    obtain ⟨hbefore, hafter⟩ := halone w rfl
    exact ⟨i, [], [], ⟨rfl, by omega, hs.mpr hbefore, rfl⟩, ⟨j, [], [],
        ⟨hle, hsize, hslice, rfl⟩, ⟨rfl, hsize, he.mpr hafter, rfl⟩, rfl⟩, rfl⟩

/-- The words among the tokens are words. -/
def Token.Sound (t : Token) : Prop :=
  ∀ w, t = .word w → w ≠ [] ∧ ∀ c ∈ w, Text.isAsciiWord c = true

theorem takes_token {text : Array Char} {t : Token}
    (ht : t.Sound) {i j : Nat} {ms : Marks} :
    Takes text t.regex i j ms ↔ t.StandsAt text i j ∧ ms = [] := by
  have hplain : (∀ w, t ≠ .word w) → t.regex = .text t.text →
      (Takes text t.regex i j ms ↔ t.StandsAt text i j ∧ ms = []) := by
    intro hno heq
    rw [heq, takes_text]
    constructor
    · rintro ⟨hle, hsize, hslice, hms⟩
      exact ⟨⟨hle, hsize, hslice, fun w hw => absurd hw (hno w)⟩, hms⟩
    · rintro ⟨⟨hle, hsize, hslice, -⟩, hms⟩
      exact ⟨hle, hsize, hslice, hms⟩
  cases t with
  | word w =>
      obtain ⟨hne, hw⟩ := ht w rfl
      exact takes_word hne hw
  | quoted cs => exact hplain (fun _ h => by cases h) rfl
  | sign c => exact hplain (fun _ h => by cases h) rfl

/-- Tokens in a row are spelled where they are written. -/
theorem takes_tokens {text : Array Char}
    {slots : List Char → Regex} {n : Nat} {ts : List Token}
    (hne : ts ≠ []) (hts : ∀ t ∈ ts, t.Sound) {i j : Nat} {ms : Marks} :
    Takes text (Shape.regex slots n (ts.map .token)) i j ms ↔
    Written text ts i j ∧ ms = [] := by
  induction ts generalizing i j ms with
  | nil => exact absurd rfl hne
  | cons t ts ih =>
      have ht := hts t List.mem_cons_self
      cases ts with
      | nil =>
          show Takes text t.regex i j ms ↔ _
          rw [takes_token ht]
          constructor
          · rintro ⟨h, hms⟩
            exact ⟨.last h, hms⟩
          · rintro ⟨h, hms⟩
            cases h with
            | last h => exact ⟨h, hms⟩
      | cons u ts =>
          have hrest : ∀ {i j ms},
              Takes text (Shape.regex slots n ((u :: ts).map .token)) i j ms ↔
              Written text (u :: ts) i j ∧ ms = [] :=
            ih (List.cons_ne_nil _ _) fun x hx =>
              hts x (List.mem_cons_of_mem _ hx)
          show Takes text (.seq t.regex (.seq blanks
              (Shape.regex slots n ((u :: ts).map .token)))) i j ms ↔ _
          simp only [takes_seq, takes_token ht, takes_blanks, hrest]
          constructor
          · rintro ⟨p, _, _, ⟨htoken, rfl⟩,
              ⟨q, _, _, ⟨hpq, -, hwhite, rfl⟩, ⟨h, rfl⟩, rfl⟩, rfl⟩
            exact ⟨.cons htoken hpq hwhite h, rfl⟩
          · rintro ⟨h, rfl⟩
            cases h with
            | @cons _ _ _ _ p q _ htoken hpq hwhite h =>
                have hq := (hrest.mpr ⟨h, rfl⟩).le
                have hsize := (hrest.mpr ⟨h, rfl⟩).le_size
                exact ⟨p, [], [], ⟨htoken, rfl⟩,
                  ⟨q, [], [], ⟨hpq, by omega, hwhite, rfl⟩, ⟨h, rfl⟩, rfl⟩, rfl⟩

/-- The shape of some code templates, one after the other. -/
def Shape.codes (templates : List String) : Shape :=
  (templates.map Shape.code).foldl (· ++ ·) ⟨[]⟩

theorem Shape.pieces_codes {templates : List String} {cuts : List (List Token)}
    (h : List.Forall₂ (fun t ts => Token.Cuts t.toList ts) templates cuts) :
    (codes templates).pieces = cuts.flatten.map .token := by
  have hfold :
      ∀ s : Shape, ((templates.map Shape.code).foldl (· ++ ·) s).pieces =
      s.pieces ++ cuts.flatten.map .token := by
    induction h with
    | nil => exact fun s => (List.append_nil _).symm
    | @cons t ts templates cuts ht _ ih =>
        intro s
        rw [List.map_cons, List.foldl_cons, ih]
        show s.pieces ++ (Token.ofTemplate t.toList).map .token ++ _ = _
        rw [ht.eq_ofTemplate, List.flatten_cons, List.map_append,
          List.append_assoc]
  exact hfold ⟨[]⟩

theorem sound_of_cuts {templates : List String} {cuts : List (List Token)}
    (h : List.Forall₂ (fun t ts => Token.Cuts t.toList ts) templates cuts) :
    ∀ t ∈ cuts.flatten, t.Sound := by
  induction h with
  | nil => exact fun t ht => absurd ht List.not_mem_nil
  | cons hcut _ ih =>
      intro t ht
      rcases List.mem_append.mp ht with ht | ht
      · rintro w rfl
        exact hcut.word_spec ht
      · exact ih t ht

/-- The pattern of code templates can be parsed, and it is refused only if the
form that it has is too large. It can match the part of a text between two
places exactly if the tokens of the templates are written there. -/
theorem code_accepts_written {templates : List String}
    {cuts : List (List Token)}
    (hcuts : List.Forall₂ (fun t ts => Token.Cuts t.toList ts) templates cuts)
    (hne : cuts.flatten ≠ []) (o : Options) :
    ∃ (form : Form) (p : Pattern), Reader.parse o.flags
        (Shape.codes templates).pattern.toList = .ok (form, [none]) ∧
      p.source = (Shape.codes templates).pattern ∧ p.options = o ∧
      p.engine = .ofRegex (.group 0 form.regex) ∧
      Pattern.compile (Shape.codes templates).pattern o =
        (if form.fits then .ok p else .error .tooLarge) ∧
      ∀ text i j, p.CanMatch text i j ↔ Written text cuts.flatten i j := by
  have hpieces := Shape.pieces_codes hcuts
  have hreadable : ∀ p ∈ (Shape.codes templates).pieces,
      p.Readable (fun _ => .empty) o := by
    rw [hpieces]
    intro p hp
    obtain ⟨t, -, rfl⟩ := List.mem_map.mp hp
    trivial
  have hnames : (Shape.codes templates).pieces.flatMap Piece.names = [] := by
    rw [hpieces, List.flatMap_map]
    exact List.flatMap_eq_nil_iff.mpr fun _ _ => rfl
  obtain ⟨form, hsame, hparse⟩ :=
    Shape.parse_pattern hreadable (by rw [hnames]; exact .nil)
  rw [hnames] at hparse
  refine ⟨form, _, hparse, rfl, rfl, rfl, compile_of_parse hparse, ?_⟩
  intro text i j
  rw [hpieces] at hsame
  have htokens : ∀ {ms : Marks},
      Takes text (Shape.regex (fun _ => .empty) 1 (cuts.flatten.map .token))
      i j ms ↔ Written text cuts.flatten i j ∧ ms = [] :=
    takes_tokens hne (sound_of_cuts hcuts)
  rw [canMatch_of_same rfl hsame]
  constructor
  · rintro ⟨ms, h⟩
    exact (htokens.mp h).1
  · intro h
    exact ⟨[], htokens.mpr ⟨h, rfl⟩⟩

/-- Two templates, of which the second one ends inside a literal. Their pattern
compiles, and it can match the tokens in another layout. -/
theorem code_accepts_written_call :
    Token.Cuts "f(".toList [.word ['f'], .sign '('] ∧
      Token.Cuts "'a b".toList [.quoted "'a b".toList] ∧
      ∃ p, Pattern.compile (Shape.codes ["f(", "'a b"]).pattern .plain = .ok p ∧
        (∀ text i j, p.CanMatch text i j ↔
          Written text [.word ['f'], .sign '(', .quoted "'a b".toList] i j) ∧
        p.CanMatch "= f (\n'a b".toList.toArray 2 10 := by
  have hcall : Token.Cuts "f(".toList [.word ['f'], .sign '('] :=
    Token.cuts_iff.mpr rfl
  have hopen : Token.Cuts "'a b".toList [.quoted "'a b".toList] :=
    Token.cuts_iff.mpr rfl
  have hok : (Pattern.compile (Shape.codes ["f(", "'a b"]).pattern
      .plain).isOk = true := by
    decide +kernel
  have hwritten : Written "= f (\n'a b".toList.toArray
      [.word ['f'], .sign '(', .quoted "'a b".toList] 2 10 := by
    refine .cons (j := 3) (k := 4)
      ⟨by decide, by decide, by decide +kernel, fun _ _ => ?_⟩ (by decide)
      (List.all_eq_true.mp rfl) ?_
    · decide +kernel
    · exact .cons (j := 5) (k := 6)
        ⟨by decide, by decide, by decide +kernel, nofun⟩ (by decide)
        (List.all_eq_true.mp rfl)
        (.last ⟨by decide, by decide, by decide +kernel, nofun⟩)
  obtain ⟨form, p, -, -, -, -, hcompile, hmatch⟩ :=
    code_accepts_written (.cons hcall (.cons hopen .nil))
      (List.cons_ne_nil _ _) .plain
  by_cases hfits : form.fits = true
  · rw [if_pos hfits] at hcompile
    exact ⟨hcall, hopen, p, hcompile, hmatch, (hmatch _ _ _).mpr hwritten⟩
  · rw [hcompile, if_neg hfits] at hok
    cases hok

end Codemod
