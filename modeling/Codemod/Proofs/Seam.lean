import Codemod.Proofs.Outline
import Codemod.Proofs.Replace

/-!
# Seams

Where matches give way to replacements, the text that was kept and the text
that was made meet at seams. A part of the new text that a pattern could match
lies in what was kept, and then it was there before; or it lies in what was
made, in whole or in part. `Sealed` says that the second does not happen, and
`Sealed.free` that there is then nothing to match.

What was kept need not be between two matches: a replacement may copy parts of
the text that it replaces. So a text is sealed piece by piece, and a
replacement is a `Patch` if it can be put between a piece that is free and a
text that is sealed.
-/

namespace Codemod.Pattern

variable {r q : Regex} {i : Nat} {b a : Option Char}
  {w : List Char} {ms : Marks}

/-! ## Moving a word to another place -/

/-- The expression looks at its surroundings only for the ends of words. -/
def Regex.worded : Regex → Bool
  | .empty | .one _ => true
  | .look x => x == .wordBoundary
  | .group _ r | .star _ r | .plus _ r => r.worded
  | .seq r s | .alt r s => r.worded && s.worded

/-- The marks of a match that stands further on. -/
def Marks.shift (n : Nat) (l : Marks) : Marks := l.map fun x => (x.1, x.2 + n)

theorem Marks.shift_shift (l : Marks) (m n : Nat) :
    (l.shift m).shift n = l.shift (m + n) := by
  simp [shift, Nat.add_assoc]

theorem Marks.shift_append (l l' : Marks) (n : Nat) :
    Marks.shift n (l ++ l') = l.shift n ++ l'.shift n :=
  List.map_append

/-- The marks of two words that stand one after the other. -/
theorem Marks.shift_join (l l' : Marks) (i n : Nat) :
    l.shift i ++ l'.shift (i + n) = (l ++ l'.shift n).shift i := by
  rw [Marks.shift_append, Marks.shift_shift, Nat.add_comm n i]

theorem Marks.lookup_shift (l : Marks) (n key : Nat) :
    (l.shift n).lookup key = (l.lookup key).map (· + n) := by
  induction l with
  | nil => rfl
  | cons x l ih =>
      rw [shift, List.map_cons, List.lookup_cons, List.lookup_cons]
      cases key == x.1 with
      | true => rfl
      | false => exact ih

/-- Behind a word only its own end counts, and behind no word what stands
before it. -/
theorem isWord?_getLast?_or {b b' : Option Char} (u : List Char)
    (h : Anchor.isWord? b = Anchor.isWord? b') :
    Anchor.isWord? (u.getLast?.or b) = Anchor.isWord? (u.getLast?.or b') := by
  cases u.getLast? with
  | none => exact h
  | some c => rfl

/-- A word is spelled in another place too, if what stands before it is a word
character there as here or neither there nor here. Its marks move along with
it. -/
theorem Spells.placed (h : Spells r i b w a ms) (hr : r.worded = true) :
    ∃ l : Marks, ms = l.shift i ∧
    ∀ (i' : Nat) (b' : Option Char), Anchor.isWord? b = Anchor.isWord? b' →
      Spells r i' b' w a (l.shift i') := by
  induction h with
  | empty => exact ⟨[], rfl, fun _ _ _ => .empty⟩
  | one hs => exact ⟨[], rfl, fun _ _ _ => .one hs⟩
  | look hlook =>
      rw [Regex.worded, beq_iff_eq] at hr
      subst hr
      refine ⟨[], rfl, fun i' b' hb => .look ?_⟩
      rw [Anchor.holds, ← hb]
      exact hlook
  | @group _ i _ _ w _ g _ ih =>
      obtain ⟨l, rfl, h⟩ := ih hr
      have hmarks :
          ∀ i, (2 * g, i) :: (l.shift i ++ [(2 * g + 1, i + w.length)]) =
          Marks.shift i ((2 * g, 0) :: (l ++ [(2 * g + 1, w.length)])) := by
        intro i
        simp [Marks.shift, Nat.add_comm]
      refine ⟨_, hmarks i, fun i' b' hb => ?_⟩
      rw [← hmarks]
      exact .group g (h i' b' hb)
  | @seq _ _ i _ _ u v _ _ _ _ ih ih' =>
      rw [Regex.worded, Bool.and_eq_true] at hr
      obtain ⟨l, rfl, h⟩ := ih hr.1
      obtain ⟨l', rfl, h'⟩ := ih' hr.2
      refine ⟨_, l.shift_join l' i u.length, fun i' b' hb => ?_⟩
      rw [← Marks.shift_join]
      exact .seq (h i' b' hb) (h' _ _ (isWord?_getLast?_or u hb))
  | altLeft _ ih =>
      rw [Regex.worded, Bool.and_eq_true] at hr
      obtain ⟨l, rfl, h⟩ := ih hr.1
      exact ⟨l, rfl, fun i' b' hb => .altLeft (h i' b' hb)⟩
  | altRight _ ih =>
      rw [Regex.worded, Bool.and_eq_true] at hr
      obtain ⟨l, rfl, h⟩ := ih hr.2
      exact ⟨l, rfl, fun i' b' hb => .altRight (h i' b' hb)⟩
  | stop => exact ⟨[], rfl, fun _ _ _ => .stop⟩
  | @round _ _ i _ _ u v _ _ _ _ ih ih' =>
      obtain ⟨l, rfl, h⟩ := ih hr
      obtain ⟨l', rfl, h'⟩ := ih' hr
      refine ⟨_, l.shift_join l' i u.length, fun i' b' hb => ?_⟩
      rw [← Marks.shift_join]
      exact .round (h i' b' hb) (h' _ _ (isWord?_getLast?_or u hb))
  | @plus _ _ i _ _ u v _ _ _ _ ih ih' =>
      obtain ⟨l, rfl, h⟩ := ih hr
      obtain ⟨l', rfl, h'⟩ := ih' hr
      refine ⟨_, l.shift_join l' i u.length, fun i' b' hb => ?_⟩
      rw [← Marks.shift_join]
      exact .plus (h i' b' hb) (h' _ _ (isWord?_getLast?_or u hb))

theorem Spells.moved (h : Spells r i b w a ms)
    (hr : r.worded = true) {b' : Option Char}
    (hb : Anchor.isWord? b = Anchor.isWord? b') (i' : Nat) :
    ∃ ms', Spells r i' b' w a ms' := by
  obtain ⟨l, -, hspells⟩ := h.placed hr
  exact ⟨_, hspells i' b' hb⟩

/-- The expression spells nothing but the empty word, and that everywhere. -/
def Regex.silent : Regex → Bool
  | .empty => true
  | .seq r s => r.silent && s.silent
  | _ => false

/-- The expression ends with a character, so that it does not look behind its
end. -/
def Regex.closed : Regex → Bool
  | .one _ => true
  | .group _ r => r.closed
  | .seq r s => s.closed || (r.closed && s.silent)
  | _ => false

theorem Spells.silent (h : Spells r i b w a ms)
    (hr : r.silent = true) (a' : Option Char) :
    w = [] ∧ Spells r i b w a' ms := by
  induction h generalizing a' with
  | empty => exact ⟨rfl, .empty⟩
  | seq _ _ ih ih' =>
      rw [Regex.silent, Bool.and_eq_true] at hr
      obtain ⟨rfl, h⟩ := ih hr.1 a'
      obtain ⟨rfl, h'⟩ := ih' hr.2 a'
      exact ⟨rfl, .seq h h'⟩
  | _ => cases hr

/-- What stands behind a closed expression does not matter. -/
theorem Spells.closed (h : Spells r i b w a ms)
    (hr : r.closed = true) (a' : Option Char) :
    w ≠ [] ∧ Spells r i b w a' ms := by
  induction h generalizing a' with
  | one hs => exact ⟨List.cons_ne_nil _ _, .one hs⟩
  | group g _ ih => exact ⟨(ih hr a').1, .group g (ih hr a').2⟩
  | @seq _ _ _ _ a u v _ _ h h' ih ih' =>
      rw [Regex.closed, Bool.or_eq_true, Bool.and_eq_true] at hr
      rcases hr with hs | ⟨hr, hs⟩
      · obtain ⟨hv, hspells⟩ := ih' hs a'
        refine ⟨fun hnil => hv (List.append_eq_nil_iff.mp hnil).2,
          .seq ?_ hspells⟩
        obtain ⟨c, v, rfl⟩ := List.exists_cons_of_ne_nil hv
        exact h
      · obtain ⟨rfl, hspells⟩ := h'.silent hs a'
        refine ⟨fun hnil => (ih hr a').1 (List.append_eq_nil_iff.mp hnil).1,
          .seq ?_ hspells⟩
        exact (ih hr a').2
  | _ => cases hr

/-! ## Texts without a match -/

/-- The expression spells no part of the text, with `b` before the text and
whatever stands behind the part. -/
def Free (q : Regex) (b : Option Char) (k : List Char) : Prop :=
  ∀ p w s i a ms, k = p ++ w ++ s → ¬ Spells q i (p.getLast?.or b) w a ms

/-- The text `a`, with `t` behind it, takes no part in what the expression
spells, be it that the word begins before `a` or inside it. -/
structure Apart (q : Regex) (a t : List Char) : Prop where
  ne_nil : a ≠ []
  into : ∀ u v s i b c ms, u ≠ [] → v ≠ [] → v ++ s = a ++ t →
    ¬ Spells q i b (u ++ v) c ms
  within : ∀ x y w s i b c ms, y ≠ [] → a = x ++ y → w ++ s = y ++ t →
    ¬ Spells q i b w c ms

/-- The text is made of parts that were kept and are free, and of parts that
were made and stay apart. -/
inductive Sealed (q : Regex) : Option Char → List Char → Prop where
  | last {b : Option Char} {k : List Char} (hk : Free q b k) : Sealed q b k
  | cut {b : Option Char} {k a t : List Char} (hk : Free q b k)
      (ha : Apart q a t) (ht : Sealed q a.getLast? t) : Sealed q b (k ++ a ++ t)

/-- A sealed text is free. -/
theorem Sealed.free {t : List Char} (h : Sealed q b t) (hq : q.closed = true) :
    Free q b t := by
  induction h with
  | last hk => exact hk
  | @cut b k a t hk ha _ ih =>
      intro p w s i c ms heq hspells
      have hw := (hspells.closed hq none).1
      rw [List.append_assoc, List.append_assoc] at heq
      rcases List.append_eq_append_iff.mp heq with ⟨p', rfl, hrest⟩
        | ⟨k', rfl, hrest⟩
      · rcases List.append_eq_append_iff.mp hrest with ⟨p'', rfl, htail⟩
          | ⟨y, rfl, htail⟩
        · refine ih p'' w s i c ms (by rw [htail, List.append_assoc]) ?_
          have hlast : p''.getLast?.or a.getLast? =
              ((k ++ (a ++ p'')).getLast?).or b := by
            obtain ⟨d, hd⟩ :=
              Option.isSome_iff_exists.mp (List.getLast?_isSome.mpr ha.ne_nil)
            rw [List.getLast?_append, List.getLast?_append, hd]
            cases p''.getLast? <;> rfl
          rw [hlast]
          exact hspells
        · by_cases hy : y = []
          · subst hy
            rw [List.append_nil] at ih ha
            refine ih [] w s i c ms htail.symm ?_
            have hlast : ([] : List Char).getLast?.or p'.getLast? =
                ((k ++ p').getLast?).or b := by
              obtain ⟨d, hd⟩ :=
                Option.isSome_iff_exists.mp (List.getLast?_isSome.mpr ha.ne_nil)
              rw [List.getLast?_append, hd]
              rfl
            rw [hlast]
            exact hspells
          · exact ha.within p' y w s i _ c ms hy rfl htail hspells
      · rcases List.append_eq_append_iff.mp hrest with ⟨s', rfl, -⟩
          | ⟨v, rfl, htail⟩
        · exact hk p w s' i c ms (List.append_assoc _ _ _).symm hspells
        · by_cases hk' : k' = []
          · subst hk'
            rw [List.nil_append] at hspells hw
            exact ha.within [] _ v s i _ c ms ha.ne_nil rfl htail.symm hspells
          · by_cases hv : v = []
            · subst hv
              rw [List.append_nil] at hspells
              exact hk p k' [] i c ms (by rw [List.append_nil]) hspells
            · exact ha.into k' v s i _ c ms hk' hv htail.symm hspells

theorem Free.not_takes {text : Array Char}
    (h : Free q none text.toList) {j : Nat} :
    ¬ Takes text q i j ms := by
  intro ht
  have hle := ht.le
  have hsize := ht.le_size
  have hbefore : (slice text 0 i).getLast?.or none = before? text i :=
    getLast?_slice_or (Nat.zero_le i) (by omega)
  refine h (slice text 0 i) (slice text i j)
    (slice text j text.size) i text[j]? ms ?_ ?_
  · rw [slice_append (Nat.zero_le i) hle, slice_append (by omega) hsize,
      slice_zero_size]
  · rw [hbefore]
    exact ht.spells

/-- What was kept is free if there was nothing to match before. -/
theorem free_slice {text : Array Char} {last stop : Nat}
    (hworded : q.worded = true)
    (hclosed : q.closed = true) (hle : last ≤ stop) (hsize : stop ≤ text.size)
    (hno : ∀ i j ms, last ≤ i → j ≤ stop → ¬ Takes text q i j ms)
    (hb : Anchor.isWord? b = Anchor.isWord? (before? text last)) :
    Free q b (slice text last stop) := by
  intro p w s i a ms heq hspells
  rw [List.append_assoc] at heq
  obtain ⟨hp, -, hrest, hbefore, -⟩ := slice_cut hle hsize heq
  obtain ⟨hw, hword, -, -, -⟩ := slice_cut hp hsize hrest
  have hword? : Anchor.isWord? (p.getLast?.or b) =
      Anchor.isWord? (before? text (last + p.length)) := by
    rw [hbefore]
    cases p.getLast? with
    | none => exact hb
    | some c => rfl
  obtain ⟨ms', hmoved⟩ := hspells.moved hworded hword? (last + p.length)
  refine hno (last + p.length) (last + p.length + w.length) ms' (by omega) hw
    ⟨by omega, by omega, ?_⟩
  rw [hword]
  exact (hmoved.closed hclosed _).2

/-! ## Replacing matches -/

/-- The text can be put between what was kept and what is sealed. -/
structure Patch (q : Regex) (s : List Char) : Prop where
  ends : Anchor.isWord? s.getLast? = false
  fits : ∀ b k t, Free q b k → Sealed q s.getLast? t → Sealed q b (k ++ s ++ t)

/-- No end of what has the outline `q`, its first character left out, meets
what has the outline `o`. -/
def tailsApart (n : Nat) (o : Outline) : Outline → Bool
  | .one _ :: q => endsApart n [] o q
  | _ => false

/-- What is spelled does not go from the text before into a text of an outline
that it does not meet. -/
theorem not_spells_into {n : Nat} {o : Outline}
    (hinto : tailsApart n o q.outline = true) {s t u v s' : List Char}
    (hs : Fits o s) (hu : u ≠ []) (hv : v ≠ []) (heq : v ++ s' = s ++ t) :
    ¬ Spells q i b (u ++ v) a ms := by
  intro hspells
  have hfits := hspells.fits
  obtain ⟨d, u, rfl⟩ := List.exists_cons_of_ne_nil hu
  generalize q.outline = qo at hinto hfits
  cases hfits with
  | skip | more => cases hinto
  | one hc hrest => exact ends_apart hinto hv hrest .nil hs heq

/-- Outlines that do not meet keep a text apart. What is known of the text
behind it may help. -/
theorem apart_of_outline {n : Nat} {o l : Outline} {s z t : List Char}
    (hinto : tailsApart n o q.outline = true)
    (hwithin : endsApart n l q.outline o = true)
    (hs : Fits o s) (hne : s ≠ []) (hz : Fits l z) : Apart q s (z ++ t) := by
  refine ⟨hne, fun u v s' i b c ms hu hv heq =>
    not_spells_into hinto hs hu hv heq, ?_⟩
  intro x y w s' i b c ms hy heq htail hspells
  rw [heq] at hs
  exact ends_apart hwithin hy hs hz hspells.fits htail.symm

/-- A replacement that stays apart from all that an expression spells is a
patch. -/
theorem patch_of_outline {n : Nat} {o : Outline} {s : List Char}
    (hends : o.endsPlain = true) (hinto : tailsApart n o q.outline = true)
    (hwithin : endsApart n [] q.outline o = true)
    (hs : Fits o s) : Patch q s := by
  obtain ⟨hne, hword⟩ := hs.endsPlain hends
  refine ⟨hword, fun b k t hk ht => .cut hk ?_ ht⟩
  exact apart_of_outline hinto hwithin hs hne .nil

/-- Nothing is spelled between the matches. -/
def GapsFree (q : Regex) (text : Array Char) : Nat → List Match → Prop
  | last, [] => ∀ i j l, last ≤ i → ¬ Takes text q i j l
  | last, m :: ms =>
    (∀ i j l, last ≤ i → j ≤ m.start → ¬ Takes text q i j l) ∧
      GapsFree q text m.stop ms

theorem gapsFree_of_not_takes {text : Array Char}
    (h : ∀ i j l, ¬ Takes text q i j l) (last : Nat)
    (ms : List Match) : GapsFree q text last ms := by
  induction ms generalizing last with
  | nil => exact fun i j l _ => h i j l
  | cons m ms ih => exact ⟨fun i j l _ _ => h i j l, ih m.stop⟩

/-- If every match gives way to a patch, the new text is sealed. -/
theorem sealed_weave {text : Array Char} (hworded : q.worded = true)
    (hclosed : q.closed = true) {ms : List Match} {rs : List (List Char)}
    (h : List.Forall₂ (fun m s => Patch q s ∧
      Anchor.isWord? (before? text m.stop) = false) ms rs)
    {last : Nat} (hord : Ordered text last ms) (hgaps : GapsFree q text last ms)
    (hb : Anchor.isWord? b = Anchor.isWord? (before? text last)) :
    Sealed q b (weave (gaps text last ms) rs) := by
  induction h generalizing last b with
  | nil =>
      rw [gaps, weave, List.flatten_singleton]
      exact .last (free_slice hworded hclosed hord (Nat.le_refl _)
        (fun i j l hi _ => hgaps i j l hi) hb)
  | @cons m s ms rs hm _ ih =>
      obtain ⟨hstart, hstop, hms⟩ := hord
      obtain ⟨hgap, hgaps⟩ := hgaps
      have hsize := (weave_gaps hms).2
      rw [gaps, weave]
      refine hm.1.fits _ _ _ ?_ (ih hms hgaps (by rw [hm.1.ends, hm.2]))
      exact free_slice hworded hclosed hstart (by omega) hgap hb

end Codemod.Pattern
