import Codemod.Proofs.Enumerate

/-!
# Expressions that can be read in one way only

The places of a match are settled by preference, but for most patterns that is
no matter: at each place of a text one look at the next character tells whether
a repetition goes on. `Regex.sharp` says that of an expression, given the
characters that may come behind it, and `Spells.sharp` that it then spells at
most one of the beginnings of a text, with the same marks. So what a sharp
expression takes from a place on is one part of the text at most.
-/

namespace Codemod.Pattern

/-- The characters that a word of the expression can begin with. -/
def Regex.firsts : Regex → Text.Ranges
  | .empty | .look _ => []
  | .one s => s.ranges
  | .group _ r | .star _ r | .plus _ r => r.firsts
  | .seq r s => if r.mayBeEmpty then r.firsts ++ s.firsts else r.firsts
  | .alt r s => r.firsts ++ s.firsts

/-- The characters that can come next where the expression begins, if these may
follow it. -/
def Regex.ahead (r : Regex) (f : Text.Ranges) : Text.Ranges :=
  if r.mayBeEmpty then r.firsts ++ f else r.firsts

/-- Where one of these characters or nothing follows, the next character tells
how to go on. An alternative is not looked into. -/
def Regex.sharp : Regex → Text.Ranges → Bool
  | .empty, _ | .look _, _ | .one _, _ => true
  | .group _ r, f => r.sharp f
  | .seq r s, f => r.sharp (s.ahead f) && s.sharp f
  | .alt _ _, _ => false
  | .star _ r, f | .plus _ r, f =>
    !r.mayBeEmpty && !overlap r.firsts f && r.sharp (r.firsts ++ f)

/-- The text begins with one of these characters, if it is not empty. -/
def Heads (f : Text.Ranges) (s : List Char) : Prop := ∀ c ∈ s.head?, Covers f c

variable {r : Regex} {i : Nat} {b a : Option Char} {w : List Char} {ms : Marks}
  {f : Text.Ranges}

theorem Heads.append_left (h : Heads f w) (g : Text.Ranges) :
    Heads (f ++ g) w :=
  fun c hc => (h c hc).append_left g

theorem Heads.append_right (h : Heads f w) (g : Text.Ranges) :
    Heads (g ++ f) w :=
  fun c hc => (h c hc).append_right g

/-- What comes next is the first character of a word, or what follows it if it
is empty. -/
theorem Heads.ahead {s : List Char} (hw : Heads r.firsts w)
    (hempty : w = [] → r.mayBeEmpty = true)
    (hs : Heads f s) : Heads (r.ahead f) (w ++ s) := by
  rw [Regex.ahead]
  cases w with
  | nil =>
      rw [if_pos (hempty rfl)]
      exact hs.append_right _
  | cons c w =>
      split
      · exact hw.append_left _
      · exact hw

theorem Spells.firsts (h : Spells r i b w a ms) : Heads r.firsts w := by
  induction h with
  | empty | look | stop => exact fun c hc => by cases hc
  | one hs =>
      intro c hc
      cases hc
      exact covers_of_has hs
  | group _ _ ih => exact ih
  | seq h _ ih ih' => exact ih.ahead (fun hu => h.mayBeEmpty hu) ih'
  | altLeft _ ih => exact ih.append_left _
  | altRight _ ih => exact ih.append_right _
  | @round _ _ _ _ _ u v _ _ _ _ ih ih' | @plus _ _ _ _ _ u v _ _ _ _ ih ih' =>
      cases u with
      | nil => exact ih'
      | cons c u => exact ih

theorem Spells.ahead {s : List Char}
    (h : Spells r i b w a ms) (hs : Heads f s) :
    Heads (r.ahead f) (w ++ s) :=
  h.firsts.ahead (fun hw => h.mayBeEmpty hw) hs

/-- Of two rounds one does not end where the other goes on. -/
theorem Spells.not_head {s : List Char}
    (h : Spells r i b w a ms) (hr : r.mayBeEmpty = false)
    (hf : overlap r.firsts f = false) (hs : Heads f (w ++ s)) : False := by
  cases w with
  | nil => cases hr.symm.trans (h.mayBeEmpty rfl)
  | cons c w =>
      cases hf.symm.trans (overlap_of_covers (h.firsts c rfl) (hs c rfl))

/-- A sharp expression spells one beginning of a text at most, with the same
marks. What follows the two words changes along the induction: behind a first
part it is the rest. -/
theorem Spells.sharp (h : Spells r i b w a ms)
    (hr : r.sharp f = true) {v : List Char} {a' : Option Char} {ns : Marks}
    (h' : Spells r i b v a' ns) {s t : List Char} (hs : Heads f s)
    (ht : Heads f t) (heq : w ++ s = v ++ t) : w = v ∧ ms = ns := by
  induction h generalizing f v a' ns s t with
  | empty | look =>
      cases h'
      exact ⟨rfl, rfl⟩
  | one =>
      cases h' with
      | one => exact ⟨congrArg ([·]) (List.cons.inj heq).1, rfl⟩
  | group g _ ih =>
      cases h' with
      | group _ h' =>
          obtain ⟨rfl, rfl⟩ := ih hr h' hs ht heq
          exact ⟨rfl, rfl⟩
  | seq _ hback ih ih' =>
      cases h' with
      | seq hfront' hback' =>
          rw [Regex.sharp, Bool.and_eq_true] at hr
          rw [List.append_assoc, List.append_assoc] at heq
          obtain ⟨rfl, rfl⟩ :=
            ih hr.1 hfront' (hback.ahead hs) (hback'.ahead ht) heq
          obtain ⟨rfl, rfl⟩ :=
            ih' hr.2 hback' hs ht (List.append_cancel_left heq)
          exact ⟨rfl, rfl⟩
  | altLeft | altRight => cases hr
  | stop =>
      simp only [Regex.sharp, Bool.and_eq_true, Bool.not_eq_true'] at hr
      cases h' with
      | stop => exact ⟨rfl, rfl⟩
      | round hround =>
          rw [List.nil_append, List.append_assoc] at heq
          rw [heq] at hs
          exact (hround.not_head hr.1.1 hr.1.2 hs).elim
  | @round _ greedy _ _ _ u u' _ _ hfront hback ih ih' =>
      have hstar := hr
      simp only [Regex.sharp, Bool.and_eq_true, Bool.not_eq_true'] at hr
      cases h' with
      | stop =>
          rw [List.nil_append, List.append_assoc] at heq
          rw [← heq] at ht
          exact (hfront.not_head hr.1.1 hr.1.2 ht).elim
      | round hfront' hback' =>
          rw [List.append_assoc, List.append_assoc] at heq
          obtain ⟨rfl, rfl⟩ :=
            ih hr.2 hfront' (hback.ahead hs) (hback'.ahead ht) heq
          obtain ⟨rfl, rfl⟩ :=
            ih' hstar hback' hs ht (List.append_cancel_left heq)
          exact ⟨rfl, rfl⟩
  | plus hfront hback ih ih' =>
      have hstar := hr
      simp only [Regex.sharp, Bool.and_eq_true, Bool.not_eq_true'] at hr
      cases h' with
      | plus hfront' hback' =>
          rw [List.append_assoc, List.append_assoc] at heq
          obtain ⟨rfl, rfl⟩ :=
            ih hr.2 hfront' (hback.ahead hs) (hback'.ahead ht) heq
          obtain ⟨rfl, rfl⟩ :=
            ih' hstar hback' hs ht (List.append_cancel_left heq)
          exact ⟨rfl, rfl⟩

/-- All characters. -/
def anything : Text.Ranges := [(0, 0x10ffff)]

theorem heads_anything (w : List Char) : Heads anything w := by
  intro c _
  refine ⟨_, List.mem_singleton_self _, Nat.zero_le _, ?_⟩
  show c.toNat ≤ 0x10ffff
  have hvalid : c.toNat.isValidChar := c.valid
  rcases hvalid with h | ⟨-, h⟩ <;> omega

/-- From a place of a text a sharp expression takes one part at most. -/
theorem Takes.sharp {text : Array Char} {i j k : Nat} {l l' : Marks}
    (h : Takes text r i j l)
    (hr : r.sharp anything = true) (h' : Takes text r i k l') :
    j = k ∧ l = l' := by
  have hij := h.le
  have hik := h'.le
  have heq : slice text i j ++ slice text j text.size =
      slice text i k ++ slice text k text.size := by
    rw [slice_append hij h.le_size, slice_append hik h'.le_size]
  obtain ⟨hw, hl⟩ :=
    h.spells.sharp hr h'.spells (heads_anything _) (heads_anything _) heq
  have hlen := congrArg List.length hw
  rw [length_slice hij h.le_size, length_slice hik h'.le_size] at hlen
  exact ⟨by omega, hl⟩

end Codemod.Pattern
