import Codemod.Proofs.Choice
import Codemod.Proofs.Enumerate
import Codemod.Proofs.MigrationShapes
import Codemod.Proofs.ShapeGrammar

/-!
# How far a subject reaches

The subject of an assertion has white space on both sides, and it may have
white space in itself. So there are many ways to divide what stands between two
parentheses into space, subject and space, and the choices decide: of the space
in front as much as possible, but a character is left for the subject; then of
the subject as much as possible, and so no space behind it. `Foremost` is a way
that no other one is preferred to, and `Foremost.subject` says what is captured
then. Where the space behind ends is not a matter of choice: a subject has its
parentheses in pairs, so this is the parenthesis that closes the one in front
(`closing?`).
-/

namespace Codemod

open Text (isWhite)

/-- How many characters stand before the parenthesis that closes the one that
was opened before them, after `depth` others were opened. -/
def untilClosed (depth : Nat) : List Char → Option Nat
  | [] => none
  | c :: cs =>
    if c = ')' ∧ depth = 0 then some 0
    else
      (untilClosed (if c = '(' then depth + 1 else if c = ')' then depth - 1
          else depth) cs).map (· + 1)

/-- The place of the parenthesis that closes the one that was opened right
before this place. -/
def closing? (text : Array Char) (a : Nat) : Option Nat :=
  (untilClosed 0 (slice text a text.size)).map (a + ·)

/-- A text without the white space in front, or the last character of a text
that is all white space. -/
def trimmed (w : List Char) : List Char :=
  if w.all isWhite then w.getLast?.toList else w.dropWhile isWhite

theorem untilClosed_cons_other {c : Char} (hopen : c ≠ '(')
    (hclose : c ≠ ')') (depth : Nat) (cs : List Char) :
    untilClosed depth (c :: cs) = (untilClosed depth cs).map (· + 1) := by
  rw [untilClosed, if_neg fun h => hclose h.1, if_neg hopen, if_neg hclose]

theorem untilClosed_open (depth : Nat) (cs : List Char) :
    untilClosed depth ('(' :: cs) =
      (untilClosed (depth + 1) cs).map (· + 1) := by
  rw [untilClosed, if_neg fun h => absurd h.1 (by decide), if_pos rfl]

theorem untilClosed_close (depth : Nat) (cs : List Char) :
    untilClosed (depth + 1) (')' :: cs) =
      (untilClosed depth cs).map (· + 1) := by
  rw [untilClosed, if_neg fun h => Nat.succ_ne_zero depth h.2,
    if_neg (by decide), if_pos rfl, Nat.add_sub_cancel]

theorem untilClosed_append {w : List Char}
    (hw : ∀ c ∈ w, c ≠ '(' ∧ c ≠ ')') (depth : Nat) (cs : List Char) :
    untilClosed depth (w ++ cs) =
      (untilClosed depth cs).map (· + w.length) := by
  induction w with
  | nil =>
      rw [List.nil_append]
      exact Option.map_id'.symm
  | cons c w ih =>
      obtain ⟨hopen, hclose⟩ := hw c List.mem_cons_self
      rw [List.cons_append, untilClosed_cons_other hopen hclose,
        ih fun d hd => hw d (List.mem_cons_of_mem _ hd), Option.map_map]
      rfl

theorem trimmed_append {u v : List Char} (hu : ∀ c ∈ u, isWhite c = true)
    (hv : (∃ c, v = [c]) ∨ ∃ c t, v = c :: t ∧ isWhite c = false) :
    trimmed (u ++ v) = v := by
  have hall : u.all isWhite = true := List.all_eq_true.mpr hu
  have hstarts : ∀ {c : Char} {t : List Char}, isWhite c = false →
      trimmed (u ++ c :: t) = c :: t := by
    intro c t hc
    have hnot : (u ++ c :: t).all isWhite = false := by
      rw [List.all_append, List.all_cons, hc, Bool.false_and, Bool.and_false]
    rw [trimmed, hnot, List.dropWhile_append_of_pos hu,
      List.dropWhile_cons_of_neg (by simp [hc])]
    rfl
  rcases hv with ⟨c, rfl⟩ | ⟨c, t, rfl, hc⟩
  · cases hc : isWhite c with
    | false => exact hstarts hc
    | true =>
        have hwhite : (u ++ [c]).all isWhite = true := by
          rw [List.all_append, hall, List.all_cons, hc]
          rfl
        rw [trimmed, if_pos hwhite, List.getLast?_concat]
        rfl
  · exact hstarts hc

namespace Pattern

variable {text : Array Char} {i j k : Nat} {l : Marks} {c : List Bool}

/-! ## Choices that are not preferred to others -/

theorem Before.irrefl (a : List Bool) : ¬ Before a a := fun h => h.asymm h

theorem before_replicate {m n : Nat} (h : n < m) (a b : List Bool) :
    Before (List.replicate m false ++ a)
      (List.replicate n false ++ true :: b) := by
  obtain ⟨k, rfl⟩ := Nat.exists_eq_add_of_lt h
  have hsplit : List.replicate (n + k + 1) false ++ a =
      List.replicate n false ++ false :: (List.replicate k false ++ a) := by
    rw [Nat.add_assoc, List.replicate_add, List.replicate_succ,
      List.append_assoc]
    rfl
  rw [hsplit]
  exact (Before.fork _ _).append_left _

/-- The expression passes the text like this, and nothing that it passes from
there is preferred to it. -/
structure Foremost (text : Array Char) (r : Regex) (i j : Nat) (l : Marks)
    (c : List Bool) : Prop where
  passes : Passes text r i j l c
  best : ∀ j' l' c', Passes text r i j' l' c' → ¬ Before c' c

/-- The end of what is passed foremost is passed foremost. -/
theorem Foremost.seq {r s : Regex} (h : Foremost text (.seq r s) i k l c) :
    ∃ j l₁ l₂ c₁ c₂, Passes text r i j l₁ c₁ ∧ Foremost text s j k l₂ c₂ ∧
    l = l₁ ++ l₂ ∧ c = c₁ ++ c₂ := by
  obtain ⟨hpasses, hbest⟩ := h
  cases hpasses with
  | @seq _ _ _ j _ l₁ l₂ c₁ c₂ hr hs =>
      refine ⟨j, l₁, l₂, c₁, c₂, hr,
        ⟨hs, fun j' l' c' hs' hbefore => ?_⟩, rfl, rfl⟩
      exact hbest _ _ _ (.seq hr hs') (hbefore.append_left c₁)

/-! ## Runs and rounds -/

theorem Passes.run_choices {s : CharSet} {x : Regex} (h : Passes text x i j l c)
    (hx : x = .star true (.one s)) :
    c = List.replicate (j - i) false ++ [true] := by
  induction h with
  | stop r greedy i =>
      cases hx
      rw [Nat.sub_self]
      rfl
  | @round r greedy i j k l l' c c' h h' _ ih =>
      cases hx
      cases h
      have hle := h'.le
      rw [ih rfl, show k - i = k - (i + 1) + 1 by omega]
      rfl
  | _ => cases hx

theorem passes_run {s : CharSet} (hij : i ≤ j) (hj : j ≤ text.size)
    (hs : ∀ x ∈ slice text i j, s.has x = true) :
    Passes text (.star true (.one s)) i j []
      (List.replicate (j - i) false ++ [true]) := by
  have htakes : Takes text (.star true (.one s)) i j [] :=
    ⟨hij, hj, spells_run.mpr ⟨hs, rfl⟩⟩
  obtain ⟨c, hc⟩ := htakes.passes
  rw [← hc.run_choices rfl]
  exact hc

theorem Passes.of_run {s : CharSet}
    (h : Passes text (.star true (.one s)) i j l c)
    (hi : i ≤ text.size) : (∀ x ∈ slice text i j, s.has x = true) ∧ l = [] :=
  spells_run.mp (h.takes hi).spells

/-- Rounds that have come to their end can be followed by another one, and that
would have been preferred. -/
theorem Passes.another {r x : Regex}
    (h : Passes text x i j l c) (hx : x = .star true r) :
    ∃ c₀, c = c₀ ++ [true] ∧ ∀ k l' c', Passes text r j k l' c' →
      Passes text (.star true r) i k (l ++ l')
        (c₀ ++ false :: (c' ++ [true])) := by
  induction h with
  | stop r' greedy i =>
      cases hx
      refine ⟨[], rfl, fun k l' c' h => ?_⟩
      have hround := Passes.round h (.stop r true k)
      rw [List.append_nil] at hround
      exact hround
  | @round r' greedy i j k l l' c c' h h' _ ih =>
      cases hx
      obtain ⟨c₀, rfl, hanother⟩ := ih rfl
      refine ⟨false :: (c ++ c₀), by simp, fun m l'' c'' h'' => ?_⟩
      have hround := Passes.round h (hanother m l'' c'' h'')
      rw [← List.append_assoc, ← List.append_assoc] at hround
      exact hround
  | _ => cases hx

end Pattern

namespace Migration

open Pattern

variable {text : Array Char} {i j a : Nat} {l : Marks} {c : List Bool}

namespace Slot

theorem has_noParen {c : Char} : noParen.has c = true ↔ c ≠ '(' ∧ c ≠ ')' := by
  have hvalid : c.toNat.isValidChar := c.valid
  rw [Nat.isValidChar] at hvalid
  have hcode : ∀ d : Char, c = d ↔ c.toNat = d.toNat :=
    fun d => Char.toNat_inj.symm
  rw [ne_eq, ne_eq, hcode, hcode]
  simp only [CharSet.has, noParen, Text.Ranges.has, Bool.or_false,
    Bool.and_eq_true, Bool.or_eq_true, decide_eq_true_eq]
  show _ ↔ ¬ c.toNat = 0x28 ∧ ¬ c.toNat = 0x29
  omega

theorem ne_paren_of_isWhite {c : Char} (h : isWhite c = true) :
    c ≠ '(' ∧ c ≠ ')' := by
  constructor
  · rintro rfl
    exact absurd h (by decide)
  · rintro rfl
    exact absurd h (by decide)

theorem untilClosed_star {x : Regex} {b a : Option Char} {w : List Char}
    (h : Spells x i b w a l)
    (hx : x = .star true (.alt (.one noParen) callRegex)) (cs : List Char) :
    untilClosed 0 (w ++ cs) = (untilClosed 0 cs).map (· + w.length) := by
  induction h with
  | stop => exact Option.map_id'.symm
  | @round _ _ _ _ _ u v _ _ h _ _ ih =>
      cases hx
      have hitem : untilClosed 0 (u ++ (v ++ cs)) =
          (untilClosed 0 (v ++ cs)).map (· + u.length) := by
        rcases spells_alt.mp h with h | h
        · obtain ⟨d, hd, rfl, -⟩ := spells_one.mp h
          refine untilClosed_append (fun e he => ?_) 0 _
          rw [List.mem_singleton.mp he]
          exact has_noParen.mp hd
        · obtain ⟨_, _, _, _, hopen, hrest, rfl, -⟩ := spells_seq.mp h
          obtain ⟨inner, _, _, _, hinner, hclose, rfl, -⟩ := spells_seq.mp hrest
          obtain ⟨rfl, -⟩ := spells_text.mp hopen
          obtain ⟨rfl, -⟩ := spells_text.mp hclose
          have hplain :=
            fun e he => has_noParen.mp ((spells_run.mp hinner).1 e he)
          rw [List.append_assoc, List.singleton_append, untilClosed_open,
            List.append_assoc, untilClosed_append hplain, List.singleton_append,
            untilClosed_close, Option.map_map, Option.map_map]
          refine congrArg (Option.map · _) (funext fun n => ?_)
          simp only [Function.comp_apply, List.length_append,
            List.length_singleton]
          omega
      rw [List.append_assoc, hitem, ih rfl, Option.map_map]
      refine congrArg (Option.map · _) (funext fun n => ?_)
      simp only [Function.comp_apply, List.length_append]
      omega
  | _ => cases hx

theorem untilClosed_subject {b a : Option Char} {w : List Char}
    (h : Spells subjectRegex i b w a l) (cs : List Char) :
    untilClosed 0 (w ++ cs) = (untilClosed 0 cs).map (· + w.length) := by
  cases h with
  | plus h h' => exact untilClosed_star (.round h h') rfl cs

theorem passes_subject (h : Passes text subjectRegex i j l c)
    (hi : i ≤ text.size) :
    l = [] ∧ i < j ∧ j ≤ text.size := by
  have htakes := h.takes hi
  have hmarks : ∀ x ∈ l, False := fun x hx =>
    htakes.spells.marks_of_not_mentions (g := x.1 / 2) rfl x hx rfl
  refine ⟨List.eq_nil_iff_forall_not_mem.mpr hmarks, ?_, htakes.le_size⟩
  refine Nat.lt_of_le_of_ne h.le fun heq => ?_
  have hempty := htakes.spells.mayBeEmpty (by rw [heq, slice_self])
  cases hempty

theorem subject_longer (h : Passes text subjectRegex i j l c) {d : Char}
    (hd : text[j]? = some d)
    (hwhite : isWhite d = true) : ∃ c₀, c = c₀ ++ [true] ∧
      Passes text subjectRegex i (j + 1) l (c₀ ++ [false, false, true]) := by
  have hitem :
      Passes text (.alt (.one noParen) callRegex) j (j + 1) [] [false] :=
    .altLeft (.one hd (has_noParen.mpr (ne_paren_of_isWhite hwhite)))
  cases h with
  | @plus _ _ _ _ _ l₁ l₂ c₁ c₂ h h' =>
      obtain ⟨c₀, rfl, hanother⟩ := h'.another rfl
      refine ⟨c₁ ++ c₀, (List.append_assoc _ _ _).symm, ?_⟩
      have hplus := Passes.plus h (hanother _ _ _ hitem)
      rw [List.append_nil, ← List.append_assoc] at hplus
      exact hplus

/-- A subject that begins with white space and goes on behind it can do without
it. White space opens no parentheses, so it was a round of its own. -/
theorem subject_later (h : Passes text subjectRegex i j l c) {d : Char}
    (hd : text[i]? = some d) (hwhite : isWhite d = true) (hmore : i + 1 < j) :
    ∃ l' c', Passes text subjectRegex (i + 1) j l' c' := by
  have hfirst : ∀ {m l c}, Passes text (.alt (.one noParen) callRegex) i m l c →
      m = i + 1 := by
    intro m l c h
    cases h with
    | altLeft h =>
        cases h
        rfl
    | altRight h =>
        cases h with
        | seq h _ =>
            cases h with
            | seq h _ =>
                cases h with
                | one hc hs =>
                    cases hd.symm.trans hc
                    exact absurd (CharSet.has_single.mp hs)
                      (ne_paren_of_isWhite hwhite).1
  cases h with
  | plus h h' =>
      obtain rfl := hfirst h
      cases h' with
      | stop => exact absurd hmore (Nat.lt_irrefl _)
      | round h h' => exact ⟨_, _, .plus h h'⟩

end Slot

/-- White space, a subject and white space again. -/
def Enclosed (text : Array Char) (a b : Nat) : Prop :=
  ∃ p k l, Takes text blanks a p [] ∧ Takes text Slot.subjectRegex p k l ∧
    Takes text blanks k b []

theorem Enclosed.closing {b : Nat}
    (h : Enclosed text a b) (hb : text[b]? = some ')') :
    closing? text a = some b := by
  obtain ⟨p, k, l, hfront, hsubject, hback⟩ := h
  obtain ⟨hle, hp, hwhite, -⟩ := takes_blanks.mp hfront
  obtain ⟨hle', hsize, hwhite', -⟩ := takes_blanks.mp hback
  have hlt := hsubject.le
  have hk := hsubject.le_size
  obtain ⟨hbound, -⟩ := Array.getElem?_eq_some_iff.mp hb
  obtain ⟨e, he, hrest⟩ := slice_eq_cons hbound (Nat.le_refl _)
  cases hb.symm.trans he
  have hclosed : untilClosed 0 (slice text b text.size) = some 0 := by
    rw [hrest, untilClosed, if_pos ⟨rfl, rfl⟩]
  rw [closing?, ← slice_append hle hp,
    ← slice_append hlt hk, ← slice_append hle' hsize,
    untilClosed_append fun x hx => Slot.ne_paren_of_isWhite (hwhite x hx),
    Slot.untilClosed_subject hsubject.spells,
    untilClosed_append fun x hx => Slot.ne_paren_of_isWhite (hwhite' x hx),
    hclosed, length_slice hle hp, length_slice hlt hk, length_slice hle' hsize]
  show some (a + (0 + (b - k) + (k - p) + (p - a))) = some b
  congr 1
  omega

/-- What is captured between a parenthesis, which ends at `a`, and the one that
closes it. -/
structure Captured (text : Array Char) (a p b : Nat) : Prop where
  le_start : a ≤ p
  le : p ≤ b
  le_size : b ≤ text.size
  closing : closing? text a = some b
  trimmed : slice text p b = trimmed (slice text a b)

/-- The expression of a subject, with white space on both sides, and of what
comes then. -/
def subjectThen (g : Nat) (x : Regex) : Regex :=
  .seq blanks (.seq (.group g Slot.subjectRegex) (.seq blanks x))

theorem captured_of_passes {p b l₁ c₁ l₂ c₂} (ha : a ≤ text.size)
    (hfront : Passes text blanks a p l₁ c₁)
    (hsubject : Passes text Slot.subjectRegex p b l₂ c₂)
    (hstart : ∀ d, text[p]? = some d → isWhite d = true → b = p + 1)
    (hb : text[b]? = some ')') :
    Captured text a p b := by
  have hp := (hfront.takes ha).le_size
  have hle := hfront.le
  obtain ⟨-, hlt, hsize⟩ := Slot.passes_subject hsubject hp
  have hwhite : ∀ x ∈ slice text a p, isWhite x = true := (hfront.of_run ha).1
  obtain ⟨d, hd, hcons⟩ := slice_eq_cons hlt hsize
  have hfront' : Takes text blanks a p [] :=
    takes_blanks.mpr ⟨hle, hp, hwhite, rfl⟩
  have hback : Takes text blanks b b [] :=
    takes_blanks.mpr ⟨Nat.le_refl b,
      hsize, by rw [slice_self]; exact List.forall_mem_nil _, rfl⟩
  refine ⟨hle, Nat.le_of_lt hlt, hsize,
    Enclosed.closing ⟨p, b, l₂, hfront', hsubject.takes hp, hback⟩ hb, ?_⟩
  rw [← slice_append hle (Nat.le_of_lt hlt)]
  refine (trimmed_append hwhite ?_).symm
  rw [hcons]
  cases hd' : isWhite d with
  | false => exact .inr ⟨d, _, rfl, hd'⟩
  | true =>
      rw [hstart d hd hd', slice_self]
      exact .inl ⟨d, rfl⟩

/-- A subject that is passed foremost takes all that stands in its parentheses,
without the white space in front. -/
theorem Foremost.subject {g : Nat} {x : Regex}
    (h : Foremost text (subjectThen g x) a j l c)
    (ha : a ≤ text.size) (hx : ∀ {b j l c}, b ≤ text.size →
      Passes text x b j l c → text[b]? = some ')') :
    ∃ p b l' c', Foremost text x b j l' c' ∧
    l = (2 * g, p) :: (2 * g + 1, b) :: l' ∧ Captured text a p b := by
  obtain ⟨p, l₁, l₂, c₁, c₂, hfront, hrest, rfl, rfl⟩ := h.seq
  obtain ⟨k, l₃, l₄, c₃, c₄, hgroup, hrest', rfl, rfl⟩ := hrest.seq
  obtain ⟨b, l₅, l₆, c₅, c₆, hback, hlast, rfl, rfl⟩ := hrest'.seq
  cases hgroup with
  | @group _ _ _ l₃ _ _ hsubject =>
      have hp := (hfront.takes ha).le_size
      obtain ⟨rfl, hlt, hk⟩ := Slot.passes_subject hsubject hp
      have hb := (hback.takes hk).le_size
      obtain ⟨hfronts, rfl⟩ := hfront.of_run ha
      obtain ⟨hbacks, rfl⟩ := hback.of_run hk
      have hkb : k = b := by
        refine Nat.le_antisymm hback.le (Nat.le_of_not_lt fun hlt => ?_)
        obtain ⟨d, hd, hcons⟩ := slice_eq_cons hlt hb
        rw [hcons] at hbacks
        obtain ⟨c₀, rfl, hlonger⟩ :=
          Slot.subject_longer hsubject hd (hbacks d List.mem_cons_self)
        have hrun :=
          passes_run hlt hb fun x hx => hbacks x (List.mem_cons_of_mem _ hx)
        refine hrest.best _ _ _
          (.seq (.group g hlonger) (.seq hrun hlast.passes)) ?_
        rw [List.append_assoc c₀, List.append_assoc c₀]
        exact (Before.fork _ _).append_left c₀
      subst hkb
      refine ⟨p, k, l₆, c₆, hlast, rfl, captured_of_passes ha hfront hsubject ?_
        (hx hb hlast.passes)⟩
      intro d hd hwhite
      refine Nat.le_antisymm (Nat.le_of_not_lt fun hmore => ?_) hlt
      obtain ⟨l', c', hlater⟩ := Slot.subject_later hsubject hd hwhite hmore
      have hall : ∀ x ∈ slice text a (p + 1),
          (CharSet.property .white true).has x = true := by
        rw [← slice_append hfront.le (Nat.le_succ p), slice_succ hd]
        intro x hx
        rcases List.mem_append.mp hx with hx | hx
        · exact hfronts x hx
        · rw [List.mem_singleton.mp hx]
          exact hwhite
      have hrun := passes_run (Nat.le_succ_of_le hfront.le) (by omega) hall
      refine h.best _ _ _
        (.seq hrun (.seq (.group g hlater) (.seq hback hlast.passes))) ?_
      rw [hfront.run_choices rfl, List.append_assoc, List.append_assoc]
      exact before_replicate (by have := hfront.le; omega) _ _

end Migration

end Codemod
