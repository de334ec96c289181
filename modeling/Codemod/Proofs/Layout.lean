import Codemod.Proofs.ShapeGrammar
import Codemod.Proofs.Turns

/-!
# Code of a shape in any layout

The code that a shape is made for: its tokens, with a text in the place of each
slot, and white space between them. Only where two pieces would run together
some white space has to be there. `Laid` says that of a text, and `Laid.spells`
that the expression of the shape spells it, with marks around the texts of the
slots.
-/

namespace Codemod

open Pattern

/-- Texts for slots, by the names of these. -/
abbrev Filling := List (String × String)

/-- The text for a slot; none if there is no such slot. -/
def Filling.text (f : Filling) (name : List Char) : List Char :=
  ((f.lookup (String.ofList name)).getD "").toList

namespace Piece

/-- The text of a piece in code. -/
def text (f : Filling) : Piece → List Char
  | .token t => t.text
  | .slot name _ => f.text name
  | .indent _ => []

/-- The name and the pattern of a slot. -/
def slot? : Piece → Option (List Char × List Char)
  | .slot name pattern => some (name, pattern)
  | .token _ | .indent _ => none

/-- The piece is a word, or may be one. -/
def wordy : Piece → Bool
  | .token (.word _) | .slot _ _ => true
  | .token _ | .indent _ => false

end Piece

/-- The pieces stand in a row, with white space between them. Two that would
run together do not stand side by side. -/
inductive Laid (f : Filling) : List Piece → List Char → Prop where
  | last (p : Piece) : Laid f [p] (p.text f)
  | cons {p q : Piece} {ps : List Piece} {gap w : List Char}
      (hwhite : ∀ c ∈ gap, Text.isWhite c = true)
      (hgap : p.wordy = true → q.wordy = true → gap ≠ [])
        (h : Laid f (q :: ps) w) :
      Laid f (p :: q :: ps) (p.text f ++ (gap ++ w))

/-! ## One piece -/

/-- The piece is not an indentation, its words are words, and its other tokens
neither begin nor end like one. -/
def Piece.edged : Piece → Bool
  | .token (.word cs) => !cs.isEmpty && cs.all Text.isAsciiWord
  | .token (.quoted cs) =>
    cs.head?.any (!Text.isWord ·) && cs.getLast?.any (!Text.isWord ·)
  | .token (.sign c) => !Text.isWord c
  | .slot _ _ => true
  | .indent _ => false

/-- The slots of the pieces are filled with what their patterns spell. -/
def Fills (f : Filling) (slots : List Char → Regex) (ps : List Piece) : Prop :=
  ∀ x ∈ ps.filterMap Piece.slot?, ∀ i b a,
    Spells (slots x.2) i b (f.text x.1) a []

theorem isWord_of_isWhite {c : Char} (h : Text.isWhite c = true) :
    Text.isWord c = false := by
  cases hword : Text.isWord c with
  | false => rfl
  | true =>
      have hnone : overlap Text.white Text.word = false := by decide +kernel
      cases hnone.symm.trans
        (overlap_of_covers (covers_of_has h) (covers_of_has hword))

theorem spells_word {w : List Char} (hne : w ≠ [])
    (hw : ∀ c ∈ w, Text.isAsciiWord c = true) {i : Nat} {b a : Option Char}
    (hb : Anchor.isWord? b = false) (ha : Anchor.isWord? a = false) :
    Spells (Token.word w).regex i b w a [] := by
  have hhead : Anchor.wordBoundary.holds b (w.head?.or a) = true := by
    obtain ⟨c, hc⟩ := Option.isSome_iff_exists.mp (List.isSome_head?.mpr hne)
    rw [hc]
    exact (holds_wordBoundary_of_right
      (Token.isWord_of_isAsciiWord (hw c (List.mem_of_mem_head? hc)))).mpr hb
  have hlast : Anchor.wordBoundary.holds (w.getLast?.or b) a = true := by
    obtain ⟨c, hc⟩ := Option.isSome_iff_exists.mp (List.getLast?_isSome.mpr hne)
    rw [hc]
    exact (holds_wordBoundary_of_left
      (Token.isWord_of_isAsciiWord (hw c (List.mem_of_mem_getLast? hc)))).mpr ha
  have hback : Spells (.seq (.text w) (.look .wordBoundary)) i b
      (w ++ []) a ([] ++ []) :=
    .seq (spells_text.mpr ⟨rfl, rfl⟩) (.look hlast)
  rw [List.append_nil] at hback
  exact .seq (u := []) (v := w) (.look hhead) hback

namespace Piece

variable {f : Filling} {slots : List Char → Regex} {p : Piece} {i n : Nat}
  {b a : Option Char}

/-- What is no word begins and ends with something else than a word
character. -/
theorem edges (hp : p.edged = true) (hw : p.wordy = false) :
    (∃ c, (p.text f).head? = some c ∧ Text.isWord c = false) ∧
      ∃ c, (p.text f).getLast? = some c ∧ Text.isWord c = false := by
  cases p with
  | token t =>
      cases t with
      | word cs => cases hw
      | quoted cs =>
          rw [edged, Bool.and_eq_true, Option.any_eq_true,
            Option.any_eq_true] at hp
          obtain ⟨⟨c, hc, hc'⟩, d, hd, hd'⟩ := hp
          exact ⟨⟨c, hc, by simpa using hc'⟩, d, hd, by simpa using hd'⟩
      | sign c =>
          have hc : Text.isWord c = false := by simpa [edged] using hp
          exact ⟨⟨c, rfl, hc⟩, c, rfl, hc⟩
  | slot => cases hw
  | indent => cases hp

/-- The expression of a piece spells its text, and the group of a slot has
marks around it. -/
theorem spells (hp : p.edged = true) (hfills : ∀ x, p.slot? = some x →
      ∀ i b a, Spells (slots x.2) i b (f.text x.1) a [])
    (hb : p.wordy = true → Anchor.isWord? b = false)
    (ha : p.wordy = true → Anchor.isWord? a = false) :
    ∃ ms, Spells (p.regex slots n) i b (p.text f) a ms ∧
    (∀ x ∈ ms, n ≤ x.1 / 2) ∧ ∀ name ∈ p.names, p.text f = f.text name ∧
      Marked n i (i + (f.text name).length) ms := by
  cases p with
  | token t =>
      refine ⟨[], ?_, fun x hx => absurd hx List.not_mem_nil,
        fun x hx => absurd hx List.not_mem_nil⟩
      cases t with
      | word cs =>
          rw [edged, Bool.and_eq_true, List.all_eq_true, Bool.not_eq_true',
            List.isEmpty_eq_false_iff] at hp
          exact spells_word hp.1 hp.2 (hb rfl) (ha rfl)
      | quoted cs => exact spells_text.mpr ⟨rfl, rfl⟩
      | sign c => exact spells_text.mpr ⟨rfl, rfl⟩
  | slot name pattern =>
      refine ⟨_, .group n (hfills (name, pattern) rfl i b a), ?_, ?_⟩
      · intro x hx
        rcases List.mem_cons.mp hx with rfl | hx
        · show n ≤ 2 * n / 2
          omega
        · cases List.mem_singleton.mp hx
          show n ≤ (2 * n + 1) / 2
          omega
      · intro x hx
        cases List.mem_singleton.mp hx
        exact ⟨rfl, [], [], [], rfl, fun x hx => absurd hx List.not_mem_nil,
          fun x hx => absurd hx List.not_mem_nil⟩
  | indent => cases hp

/-- A piece gives one name at most. -/
theorem names_eq_some {g : Nat} {name : List Char}
    (h : p.names[g]? = some name) :
    g = 0 ∧ name ∈ p.names := by
  refine ⟨?_, List.mem_of_getElem? h⟩
  obtain ⟨hlt, -⟩ := List.getElem?_eq_some_iff.mp h
  have hlen : p.names.length ≤ 1 := by cases p <;> simp [names]
  omega

theorem slack_of_edged (hp : p.edged = true) : p.slack = blanks := by
  cases p with
  | token | slot => rfl
  | indent => cases hp

end Piece

/-! ## Pieces in a row -/

namespace Laid

variable {f : Filling} {slots : List Char → Regex} {ps : List Piece}
  {w : List Char} {i n : Nat} {b a : Option Char}

/-- The first character is that of the first piece, if that is not a word. -/
theorem head? (h : Laid f ps w) {p : Piece}
    (hp : ps.head? = some p) (hedged : p.edged = true)
    (hw : p.wordy = false) : ∃ c, w.head? = some c ∧ Text.isWord c = false := by
  cases h with
  | last q =>
      cases hp
      exact (Piece.edges hedged hw).1
  | cons =>
      cases hp
      obtain ⟨c, hc, hword⟩ := (Piece.edges (f := f) hedged hw).1
      exact ⟨c, by rw [List.head?_append, hc, Option.some_or], hword⟩

/-- In front of a word stands white space, or a piece that does not end like
one. -/
theorem before_word {p q : Piece} {gap : List Char}
    (hwhite : ∀ c ∈ gap, Text.isWhite c = true)
    (hgap : p.wordy = true → q.wordy = true → gap ≠ []) (hp : p.edged = true)
    (hword : q.wordy = true) :
    Anchor.isWord? (gap.getLast?.or ((p.text f).getLast?.or b)) = false := by
  cases hlast : gap.getLast? with
  | some c =>
      exact isWord_of_isWhite (hwhite c (List.mem_of_mem_getLast? hlast))
  | none =>
      rw [List.getLast?_eq_none_iff] at hlast
      have hplain : p.wordy = false := by
        cases hp : p.wordy with
        | false => rfl
        | true => exact absurd hlast (hgap hp hword)
      obtain ⟨c, hc, hcword⟩ := (Piece.edges (f := f) hp hplain).2
      rw [hc]
      exact hcword

/-- Behind a word stands white space, or a piece that does not begin like
one. -/
theorem after_word {p q : Piece} {gap : List Char}
    (hwhite : ∀ c ∈ gap, Text.isWhite c = true)
    (hgap : p.wordy = true → q.wordy = true → gap ≠ []) (h : Laid f (q :: ps) w)
    (hq : q.edged = true) (hword : p.wordy = true) :
    Anchor.isWord? ((gap ++ w).head?.or a) = false := by
  cases gap with
  | cons c gap => exact isWord_of_isWhite (hwhite c List.mem_cons_self)
  | nil =>
      have hplain : q.wordy = false := by
        cases hq : q.wordy with
        | false => rfl
        | true => exact absurd rfl (hgap hword hq)
      obtain ⟨c, hc, hcword⟩ := h.head? rfl hq hplain
      rw [List.nil_append, hc]
      exact hcword

/-- Code in any layout is spelled by the expression of its shape, and each slot
has marks around its text. -/
theorem spells (h : Laid f ps w)
    (hedged : ∀ p ∈ ps, p.edged = true) (hfills : Fills f slots ps)
    (hb : ∀ p, ps.head? = some p → p.wordy = true → Anchor.isWord? b = false)
    (ha : Anchor.isWord? a = false) :
    ∃ ms, Spells (Shape.regex slots n ps) i b w a ms ∧ (∀ x ∈ ms, n ≤ x.1 / 2) ∧
      ∀ g name, (ps.flatMap Piece.names)[g]? = some name →
      ∃ u v, w = u ++ (f.text name ++ v) ∧ Marked (n + g) (i + u.length)
          (i + u.length + (f.text name).length) ms := by
  induction h generalizing i n b with
  | last p =>
      obtain ⟨ms, hspells, hms, hnames⟩ := Piece.spells (n := n)
        (i := i) (hedged p List.mem_cons_self) (fun x hx =>
          hfills x (List.mem_filterMap.mpr ⟨p, List.mem_cons_self, hx⟩))
        (hb p rfl) (fun _ => ha)
      refine ⟨ms, hspells, hms, fun g name hg => ?_⟩
      rw [List.flatMap_singleton] at hg
      obtain ⟨rfl, hmem⟩ := Piece.names_eq_some hg
      obtain ⟨htext, hmarked⟩ := hnames name hmem
      exact ⟨[], [], by rw [htext, List.append_nil, List.nil_append], hmarked⟩
  | @cons p q ps gap w hwhite hgap hlaid ih =>
      have hp := hedged p List.mem_cons_self
      have hq := hedged q (List.mem_cons_of_mem _ List.mem_cons_self)
      obtain ⟨ms, hspells, hms, hnames⟩ := Piece.spells (n := n) (i := i) hp
        (fun x hx =>
          hfills x (List.mem_filterMap.mpr ⟨p, List.mem_cons_self, hx⟩))
        (hb p rfl) (after_word hwhite hgap hlaid hq)
      obtain ⟨ns, hrest, hns, hplaces⟩ :=
        ih (i := i + (p.text f).length + gap.length) (n := n + p.names.length)
          (b := gap.getLast?.or ((p.text f).getLast?.or b))
          (fun x hx => hedged x (List.mem_cons_of_mem _ hx))
          (fun x hx => hfills x (List.mem_filterMap.mpr ((List.mem_filterMap.mp
            hx).imp fun _ => And.imp_left (List.mem_cons_of_mem _))))
          (fun x hx hword => by
            cases hx
            exact before_word hwhite hgap hp hword)
      have hblanks : Spells p.slack (i + (p.text f).length)
          ((p.text f).getLast?.or b) gap (w.head?.or a) [] := by
        rw [Piece.slack_of_edged hp]
        exact spells_run.mpr ⟨hwhite, rfl⟩
      refine ⟨ms ++ ([] ++ ns), .seq hspells (.seq hblanks hrest), ?_, ?_⟩
      · intro x hx
        rcases List.mem_append.mp hx with hx | hx
        · exact hms x hx
        · have hle := hns x hx
          omega
      · intro g name hg
        rw [List.flatMap_cons] at hg
        by_cases hlt : g < p.names.length
        · rw [List.getElem?_append_left hlt] at hg
          obtain ⟨rfl, hmem⟩ := Piece.names_eq_some hg
          obtain ⟨htext, hmarked⟩ := hnames name hmem
          refine ⟨[], gap ++ w, by rw [htext, List.nil_append],
            hmarked.append_right fun x hx => ?_⟩
          have hle := hns x hx
          omega
        · rw [List.getElem?_append_right (by omega)] at hg
          obtain ⟨u, v, rfl, hmarked⟩ := hplaces _ _ hg
          refine ⟨p.text f ++ (gap ++ u), v, by simp, ?_⟩
          have hplace : i + (p.text f ++ (gap ++ u)).length =
              i + (p.text f).length + gap.length + u.length := by
            simp only [List.length_append]
            omega
          rw [hplace,
            show n + g = n + p.names.length + (g - p.names.length) by omega]
          exact hmarked.append_left ms

end Laid

/-- With the same white space between all pieces. -/
def spaced (f : Filling) (gap : List Char) : List Piece → List Char
  | [] => []
  | [p] => p.text f
  | p :: q :: ps => p.text f ++ (gap ++ spaced f gap (q :: ps))

theorem laid_spaced {f : Filling} {gap : List Char}
    (hwhite : ∀ c ∈ gap, Text.isWhite c = true)
    (hne : gap ≠ []) {ps : List Piece} (hps : ps ≠ []) :
    Laid f ps (spaced f gap ps) := by
  induction ps with
  | nil => exact absurd rfl hps
  | cons p ps ih =>
      cases ps with
      | nil => exact .last p
      | cons q ps =>
          exact .cons hwhite (fun _ _ => hne) (ih (List.cons_ne_nil q ps))

/-! ## Filling a template -/

/-- The text of a part, if it needs nothing but the texts of the slots. -/
def Part.filled? (f : Filling) : Part → Option String
  | .text s => some s
  | .group name => f.lookup name
  | .role name => (f.lookup name).map fun s => String.ofList (bareRole s.toList)
  | .optional _ _ | .lineEnding => none

/-- The text of a template that is filled with the texts of the slots. -/
def Template.filled? (f : Filling) : Template → Option String
  | [] => some ""
  | p :: ps => do return (← p.filled? f) ++ (← Template.filled? f ps)

theorem Template.lineEnding_not_mem {f : Filling} {t : Template} {made : String}
    (ht : t.filled? f = some made) : Part.lineEnding ∉ t := by
  induction t generalizing made with
  | nil => exact List.not_mem_nil
  | cons p ps ih =>
      obtain ⟨head, hhead, ht⟩ := Option.bind_eq_some_iff.mp ht
      obtain ⟨rest, hrest, -⟩ := Option.bind_eq_some_iff.mp ht
      rw [List.mem_cons, not_or]
      refine ⟨?_, ih hrest⟩
      rintro rfl
      cases hhead

section

variable {r : Rule} {names : List String} {f : Filling}
  {code : String} {l : Marks}

/-- What the marks around the texts of the slots are: group `g + 1` has the
text of the slot `g`. -/
def Grouped (f : Filling) (names : List String) (w : List Char) (l : Marks) :
    Prop :=
  ∀ g name, names[g]? = some name → ∃ u v, w = u ++ (f.text name.toList ++ v) ∧
    Marked (g + 1) u.length (u.length + (f.text name.toList).length) l

/-- The group of a slot has the text of the slot. -/
theorem Grouped.group_whole (h : Grouped f names code.toList l)
    (hnames : r.pattern.Names names)
    (hf : f.map Prod.fst = names) {name text : String}
    (htext : f.lookup name = some text) :
    (r.hit code (.whole code.toList l)).group name = .ok text := by
  have hmem : name ∈ names := by
    obtain ⟨front, back, heq, -⟩ := List.lookup_eq_some_iff.mp htext
    rw [← hf, heq]
    simp
  obtain ⟨g, hg⟩ : ∃ g, names.findIdx? (· == name) = some g := by
    rw [← Option.isSome_iff_exists, List.findIdx?_isSome, List.any_eq_true]
    exact ⟨name, hmem, beq_self_eq_true name⟩
  have hget : names[g]? = some name := by
    obtain ⟨hlt, heq, -⟩ := List.findIdx?_eq_some_iff_getElem.mp hg
    rw [List.getElem?_eq_getElem hlt, eq_of_beq heq]
  obtain ⟨u, v, hcode, hmarked⟩ := h g name hget
  have hfill : f.text name.toList = text.toList := by
    rw [Filling.text, String.ofList_toList, htext]
    rfl
  rw [hfill] at hcode hmarked
  rw [Hit.group, Rule.group?_hit hnames hg,
    (Match.has_whole _ l).span?_eq_some (Nat.succ_pos g) hmarked]
  have hslice : slice code.toList.toArray u.length
      (u.length + text.toList.length) = text.toList := by
    rw [slice, hcode]
    simp
  show Except.ok (String.ofList (slice code.toList.toArray _ _)) = _
  rw [hslice, String.ofList_toList]

theorem Grouped.produce_whole (h : Grouped f names code.toList l)
    (hnames : r.pattern.Names names)
    (hf : f.map Prod.fst = names) {t : Template} {made : String}
    (ht : t.filled? f = some made) :
    t.produce (r.hit code (.whole code.toList l)) = .ok made := by
  induction t generalizing made with
  | nil =>
      cases ht
      rfl
  | cons p ps ih =>
      obtain ⟨head, hhead, ht⟩ := Option.bind_eq_some_iff.mp ht
      obtain ⟨rest, hrest, ht⟩ := Option.bind_eq_some_iff.mp ht
      cases ht
      have hp : p.produce (r.hit code (.whole code.toList l)) = .ok head := by
        cases p with
        | text s =>
            cases hhead
            rfl
        | group name => exact h.group_whole hnames hf hhead
        | role name =>
            obtain ⟨id, hid, rfl⟩ := Option.map_eq_some_iff.mp hhead
            rw [Part.produce, h.group_whole hnames hf hid]
            rfl
        | «optional» | lineEnding => cases hhead
      rw [Template.produce, hp]
      show (Template.produce ps _ >>= _) = _
      rw [ih hrest]
      rfl

end

end Codemod
