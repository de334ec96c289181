import Codemod.Proofs.Assertion
import Codemod.Proofs.Rewrite
import Mathlib.Algebra.GroupWithZero.Nat
import Mathlib.Data.List.Infix

/-!
# Counting a word

How often a word occurs in a text, and how that changes when parts of the text
are replaced. Two texts put together have the occurrences of both and those
across the seam. A text that was made can rule these out: a word that occurs
neither inside of it nor across its ends is kept on either side of it, and it
is a `Fence`. Whether all texts of an outline are fences is decided by running
the outline against the word.

What a rule copies from a match into the replacement is not known, and may well
contain the word. But it was there before. So the two are described by what
stands around the copies (`Woven`), and then the replacement has no more
occurrences than the copies have, while the match has them all and those that
stand around the copies besides.
-/

namespace Codemod

open Pattern

/-- How often the word occurs in the text: the number of places where it
begins. -/
def occurrences (x w : List Char) : Nat := w.tails.countP (x <+: ·)

theorem occurrences_cons (x : List Char) (c : Char) (w : List Char) :
    occurrences x (c :: w) =
      occurrences x w + if x <+: c :: w then 1 else 0 := by
  simp only [occurrences, List.tails_cons, List.countP_cons, decide_eq_true_eq]

theorem occurrences_nil {x : List Char} (hx : x ≠ []) :
    occurrences x [] = 0 := by
  obtain ⟨c, x, rfl⟩ := List.exists_cons_of_ne_nil hx
  rfl

/-- Putting texts together loses no occurrence. -/
theorem occurrences_append_ge {x : List Char} (hx : x ≠ []) (u v : List Char) :
    occurrences x u + occurrences x v ≤ occurrences x (u ++ v) := by
  induction u with
  | nil =>
      rw [occurrences_nil hx, Nat.zero_add]
      exact Nat.le_refl _
  | cons c u ih =>
      have hlonger : x <+: c :: u → x <+: c :: (u ++ v) :=
        fun h => h.trans (List.prefix_append (c :: u) v)
      rw [occurrences_cons, List.cons_append, occurrences_cons]
      split
      · next hu =>
          rw [if_pos (hlonger hu)]
          omega
      · omega

/-! ## Fences -/

/-- Where the text stands, the word neither begins nor ends in it. -/
def Fence (x s : List Char) : Prop :=
  ∀ k t, occurrences x (k ++ (s ++ t)) = occurrences x k + occurrences x t

/-- Every text of the outline is a fence, as far as can be told by comparing
outlines. -/
def fences (x : List Char) (o : Outline) : Bool :=
  tailsApart steps o (.ofText x) && endsApart steps [] (.ofText x) o

theorem ne_nil_of_fences {x : List Char} {o : Outline} (h : fences x o = true) :
    x ≠ [] := by
  rintro rfl
  cases h

theorem fence_of_fits {x s : List Char} {o : Outline} (ho : fences x o = true)
    (hs : Fits o s) : Fence x s := by
  have hx := ne_nil_of_fences ho
  rw [fences, Bool.and_eq_true] at ho
  obtain ⟨hinto, hwithin⟩ := ho
  have hinside : ∀ z y t, s = z ++ y →
      occurrences x (y ++ t) = occurrences x t := by
    intro z y t heq
    induction y generalizing z with
    | nil => rfl
    | cons c y ih =>
        have hnot : ¬ x <+: c :: (y ++ t) := by
          rintro ⟨rest, hrest⟩
          rw [heq] at hs
          exact ends_apart hwithin (List.cons_ne_nil c y) hs .nil
            (fits_ofText x) hrest.symm
        rw [List.cons_append, occurrences_cons, if_neg hnot]
        exact ih (z ++ [c]) (by rw [heq, List.append_assoc]; rfl)
  intro k t
  induction k with
  | nil =>
      rw [occurrences_nil hx, Nat.zero_add, List.nil_append, hinside [] s t rfl]
  | cons c k ih =>
      have hsame : x <+: c :: (k ++ (s ++ t)) ↔ x <+: c :: k := by
        refine ⟨?_, fun h => h.trans (List.prefix_append (c :: k) _)⟩
        rintro ⟨rest, hrest⟩
        rcases List.append_eq_append_iff.mp
          (show x ++ rest = c :: k ++ (s ++ t) from hrest) with
          ⟨k', hk, -⟩ | ⟨v, rfl, htail⟩
        · exact ⟨k', hk.symm⟩
        · by_cases hv : v = []
          · rw [hv, List.append_nil]
          · exact (ends_apart hinto hv
              (fits_ofText (k ++ v)) .nil hs htail.symm).elim
      rw [List.cons_append, occurrences_cons, occurrences_cons, ih]
      simp only [hsame]
      omega

/-! ## What an outline is sure of -/

/-- Every text of the outline begins with the word. -/
def begins : List Char → Outline → Bool
  | [], _ => true
  | _ :: _, [] => false
  | c :: x, s :: o => Migration.isJust c s && begins x o

theorem isPrefix_of_begins {x w : List Char} {o : Outline} (h : Fits o w)
    (hx : begins x o = true) : x <+: w := by
  induction h generalizing x with
  | nil =>
      cases x with
      | nil => exact List.nil_prefix
      | cons => cases hx
  | @one rs o d w hc _ ih =>
      cases x with
      | nil => exact List.nil_prefix
      | cons c x =>
          rw [begins, Bool.and_eq_true] at hx
          rw [Migration.eq_of_isJust hx.1 hc]
          exact List.cons_prefix_cons.mpr ⟨rfl, ih hx.2⟩
  | skip | more =>
      cases x with
      | nil => exact List.nil_prefix
      | cons => cases hx

/-- How often the word occurs at least in a text of the outline. -/
def surely (x : List Char) (o : Outline) : Nat := o.tails.countP (begins x)

theorem surely_le_occurrences {x w : List Char} {o : Outline}
    (hx : x ≠ []) (h : Fits o w) :
    surely x o ≤ occurrences x w := by
  obtain ⟨d, x, rfl⟩ := List.exists_cons_of_ne_nil hx
  induction h with
  | nil => exact Nat.le_refl 0
  | @one rs o c w hc h ih =>
      rw [surely, List.tails_cons, List.countP_cons, occurrences_cons]
      refine Nat.add_le_add ih ?_
      split
      · next hbegins =>
          rw [if_pos (isPrefix_of_begins (Fits.one hc h) hbegins)]
      · exact Nat.zero_le _
  | skip _ ih =>
      rw [surely, List.tails_cons, List.countP_cons]
      exact ih
  | more _ _ ih =>
      rw [occurrences_cons]
      omega

/-! ## Texts around copies -/

/-- The text consists of the copies and of texts of the outlines around them. -/
inductive Woven : List Outline → List (List Char) → List Char → Prop where
  | last {o : Outline} {w : List Char} (h : Fits o w) : Woven [o] [] w
  | copy {o : Outline} {os : List Outline} {u c v : List Char}
      {cs : List (List Char)} (h : Fits o u) (h' : Woven os cs v) :
      Woven (o :: os) (c :: cs) (u ++ (c ++ v))

section

variable {x : List Char} {os ps : List Outline} {cs : List (List Char)}
  {u v w : List Char}

theorem Woven.occurrences_ge (hx : x ≠ []) (h : Woven os cs w) :
    (os.map (surely x)).sum + (cs.map (occurrences x)).sum ≤
      occurrences x w := by
  induction h with
  | last h => simpa using surely_le_occurrences hx h
  | @copy o os u c v cs h _ ih =>
      have hfirst := surely_le_occurrences hx h
      have hinner := occurrences_append_ge hx c v
      have houter := occurrences_append_ge hx u (c ++ v)
      simp only [List.map_cons, List.sum_cons]
      omega

/-- Between fences there are the occurrences in the copies, and no others. -/
theorem Woven.occurrences_eq (h : Woven os cs w)
    (hos : os.all (fences x) = true)
    (k t : List Char) : occurrences x (k ++ (w ++ t)) =
      occurrences x k + (cs.map (occurrences x)).sum + occurrences x t := by
  induction h generalizing k with
  | last h =>
      rw [List.all_cons, Bool.and_eq_true] at hos
      exact fence_of_fits hos.1 h k t
  | copy h _ ih =>
      rw [List.all_cons, Bool.and_eq_true] at hos
      rw [List.append_assoc, List.append_assoc, fence_of_fits hos.1 h, ih hos.2,
        List.map_cons, List.sum_cons]
      omega

/-- Wherever it is put, the second text gives `d` occurrences less than the
first one at least. -/
def Sheds (x : List Char) (d : Nat) (u v : List Char) : Prop :=
  ∀ k t, occurrences x (k ++ (v ++ t)) + d ≤
    occurrences x k + occurrences x u + occurrences x t

/-- A text that is woven from the same copies and has fences around them sheds
what stood around them before. -/
theorem sheds_of_woven {d : Nat} (hx : x ≠ [])
    (hu : Woven os cs u) (hv : Woven ps cs v)
    (hos : d ≤ (os.map (surely x)).sum) (hps : ps.all (fences x) = true) :
    Sheds x d u v := by
  intro k t
  have hold := hu.occurrences_ge hx
  rw [hv.occurrences_eq hps]
  omega

/-- If every part sheds occurrences, the whole sheds them all. -/
theorem occurrences_weave_le {d : Nat}
    (hx : x ≠ []) {us vs gs : List (List Char)}
    (h : List.Forall₂ (Sheds x d) us vs) (hlen : gs.length = us.length + 1) :
    occurrences x (weave gs vs) + us.length * d ≤
      occurrences x (weave gs us) := by
  induction h generalizing gs with
  | nil =>
      rw [List.length_nil, Nat.zero_mul]
      exact Nat.le_refl _
  | @cons u v us vs hv _ ih =>
      cases gs with
      | nil => cases hlen
      | cons g gs =>
          have hrest := ih (Nat.succ.inj hlen)
          have hinner := occurrences_append_ge hx u (weave gs us)
          have houter := occurrences_append_ge hx g (u ++ weave gs us)
          have hpart := hv g (weave gs vs)
          rw [weave, weave, List.length_cons, List.append_assoc,
            List.append_assoc, Nat.succ_mul]
          omega

end

/-- A rule whose replacements shed occurrences sheds them as often as it
replaces. -/
theorem Rule.apply_sheds {r : Rule} {q : Regex}
    (hq : r.pattern.Denotes q) {x : List Char} {d : Nat}
    (hx : x ≠ []) {document : String} {edit : Edit}
    (happly : r.apply document = .ok edit)
    (hmade : ∀ m l, Takes document.toList.toArray q m.start m.stop l → m.Has l →
      ∃ s, r.produce (r.hit document m) = .ok s ∧
        Sheds x d (m.text document.toList.toArray) s.toList) :
    occurrences x edit.text.toList + edit.replacements * d ≤
      occurrences x document.toList := by
  obtain ⟨gs, us, vs, hlen, hsheds, hold, hnew, hcount⟩ :=
    Rule.apply_weave hq happly hmade
  rw [hold, hnew, hcount]
  exact occurrences_weave_le hx hsheds hlen

end Codemod
