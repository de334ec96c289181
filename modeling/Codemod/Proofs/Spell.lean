import Codemod.Proofs.Scan
import Codemod.Proofs.Slice

/-!
# What an expression spells

The same matches once more, without the text around them: whether an expression
spells a word depends on the word and on the two characters next to it, and on
nothing else. That is what statements about changed documents need, since a
word keeps its matches wherever it goes, as long as its neighbours look alike.

`Way.takes` and `Spells.way` go from ways to words and back. The place only
serves to number the marks.
-/

namespace Codemod.Pattern

/-- The expression spells the word `w`, which stands at place `i` between the
characters `b` and `a`, and makes these marks, the earliest first. -/
inductive Spells :
    Regex → Nat → Option Char → List Char → Option Char → Marks → Prop where
  | empty {i : Nat} {b a : Option Char} : Spells .empty i b [] a []
  | one {s : CharSet} {c : Char} {i : Nat} {b a : Option Char}
      (hs : s.has c = true) :
      Spells (.one s) i b [c] a []
  | look {x : Anchor} {i : Nat} {b a : Option Char} (h : x.holds b a = true) :
      Spells (.look x) i b [] a []
  | group {r : Regex} {i : Nat} {b a : Option Char} {w : List Char} {ms : Marks}
      (g : Nat) (h : Spells r i b w a ms) :
      Spells (.group g r) i b w a
        ((2 * g, i) :: (ms ++ [(2 * g + 1, i + w.length)]))
  | seq {r s : Regex} {i : Nat} {b a : Option Char} {u v : List Char}
      {ms ns : Marks} (h : Spells r i b u (v.head?.or a) ms)
      (h' : Spells s (i + u.length) (u.getLast?.or b) v a ns) :
      Spells (.seq r s) i b (u ++ v) a (ms ++ ns)
  | altLeft {r s : Regex} {i : Nat} {b a : Option Char} {w : List Char}
      {ms : Marks} (h : Spells r i b w a ms) : Spells (.alt r s) i b w a ms
  | altRight {r s : Regex} {i : Nat} {b a : Option Char} {w : List Char}
      {ms : Marks} (h : Spells s i b w a ms) : Spells (.alt r s) i b w a ms
  | stop {r : Regex} {greedy : Bool} {i : Nat} {b a : Option Char} :
      Spells (.star greedy r) i b [] a []
  | round {r : Regex} {greedy : Bool} {i : Nat} {b a : Option Char}
      {u v : List Char} {ms ns : Marks} (h : Spells r i b u (v.head?.or a) ms)
      (h' : Spells (.star greedy r) (i + u.length) (u.getLast?.or b) v a ns) :
      Spells (.star greedy r) i b (u ++ v) a (ms ++ ns)
  | plus {r : Regex} {greedy : Bool} {i : Nat} {b a : Option Char}
      {u v : List Char} {ms ns : Marks} (h : Spells r i b u (v.head?.or a) ms)
      (h' : Spells (.star greedy r) (i + u.length) (u.getLast?.or b) v a ns) :
      Spells (.plus greedy r) i b (u ++ v) a (ms ++ ns)

/-- The expression spells the part of the text between two places. -/
structure Takes (text : Array Char) (r : Regex) (i j : Nat) (ms : Marks) :
    Prop where
  le : i ≤ j
  le_size : j ≤ text.size
  spells : Spells r i (before? text i) (slice text i j) text[j]? ms

/-- Two parts of a text, one after the other. -/
theorem Takes.join {text : Array Char} {r s x : Regex} {i j k : Nat}
    {ms ns l : Marks} (h : Takes text r i j ms) (h' : Takes text s j k ns)
    (hx : ∀ {u v : List Char} {b a : Option Char}, Spells r i b u
      (v.head?.or a) ms → Spells s (i + u.length) (u.getLast?.or b) v a ns →
      Spells x i b (u ++ v) a l) :
    Takes text x i k l := by
  have hij := h.le
  have hjk := h'.le
  have hsize := h'.le_size
  refine ⟨by omega, hsize, ?_⟩
  rw [← slice_append hij hjk]
  refine hx ?_ ?_
  · rw [head?_slice_or hjk hsize]
    exact h.spells
  · rw [length_slice hij h.le_size, show i + (j - i) = j by omega,
      getLast?_slice_or hij h.le_size]
    exact h'.spells

/-- A part of a text that is spelled in two words. -/
theorem Takes.cut {text : Array Char} {r s : Regex}
    {i k : Nat} {u v : List Char} {ms ns : Marks}
    (hik : i ≤ k) (hk : k ≤ text.size) (hw : slice text i k = u ++ v)
    (h : Spells r i (before? text i) u (v.head?.or text[k]?) ms) (h' : Spells s
      (i + u.length) (u.getLast?.or (before? text i)) v text[k]? ns) :
    ∃ j, Takes text r i j ms ∧ Takes text s j k ns := by
  obtain ⟨hjk, hu, hv, hlast, hhead⟩ := slice_cut hik hk hw
  refine ⟨i + u.length, ⟨by omega, by omega, ?_⟩, ⟨hjk, hk, ?_⟩⟩
  · rw [hu, hhead]
    exact h
  · rw [hv, hlast]
    exact h'

theorem takes_seq {text : Array Char} {r s : Regex} {i k : Nat} {l : Marks} :
    Takes text (.seq r s) i k l ↔
      ∃ j ms ns, Takes text r i j ms ∧ Takes text s j k ns ∧ l = ms ++ ns := by
  constructor
  · rintro ⟨hik, hk, h⟩
    generalize hw : slice text i k = w at h
    cases h with
    | @seq _ _ _ _ _ u v ms ns h h' =>
        obtain ⟨j, hr, hs⟩ := Takes.cut hik hk hw h h'
        exact ⟨j, ms, ns, hr, hs, rfl⟩
  · rintro ⟨j, ms, ns, hr, hs, rfl⟩
    exact hr.join hs .seq

/-- A way spells the part of the text that it passes. -/
theorem Way.takes {text : Array Char} {p : Plan} {i j : Nat} {t : Trail}
    (h : Way text p i j t)
    (hi : i ≤ text.size) : Takes text p.regex i j t.marks := by
  induction h with
  | empty n i => exact ⟨Nat.le_refl i, hi, by rw [slice_self]; exact .empty⟩
  | @one s c i n hc hs =>
      obtain ⟨hlt, -⟩ := Array.getElem?_eq_some_iff.mp hc
      exact ⟨Nat.le_succ i, hlt, by rw [slice_succ hc]; exact .one hs⟩
  | @look a i n ha =>
      exact ⟨Nat.le_refl i, hi, by rw [slice_self]; exact .look ha⟩
  | @group p i j t n g h ih =>
      have ht := ih hi
      refine ⟨ht.le, ht.le_size, ?_⟩
      have hs := Spells.group g ht.spells
      rw [length_slice ht.le ht.le_size, Nat.add_sub_cancel' ht.le] at hs
      exact hs
  | seq n h _ ih ih' =>
      have ht := (ih hi).join (ih' (h.le_size hi)) .seq
      exact ht
  | altLeft n _ ih =>
      exact ⟨(ih hi).le, (ih hi).le_size, .altLeft (ih hi).spells⟩
  | altRight n _ ih =>
      exact ⟨(ih hi).le, (ih hi).le_size, .altRight (ih hi).spells⟩
  | stop n i greedy p =>
      exact ⟨Nat.le_refl i, hi, by rw [slice_self]; exact .stop⟩
  | round h _ ih ih' =>
      have ht := (ih hi).join (ih' (h.le_size hi)) .round
      exact ht
  | plus h _ ih ih' =>
      have ht := (ih hi).join (ih' (h.le_size hi)) .plus
      exact ht

/-- The word `w` stands between two places of the text, with `b` before it and
`a` behind it. -/
structure WordAt (text : Array Char) (i j : Nat) (b : Option Char)
    (w : List Char) (a : Option Char) : Prop where
  le : i ≤ j
  le_size : j ≤ text.size
  slice_eq : slice text i j = w
  before_eq : before? text i = b
  after_eq : text[j]? = a

section

variable {text : Array Char} {i j : Nat} {b a : Option Char} {u v w : List Char}

theorem WordAt.stop_eq (h : WordAt text i j b w a) : j = i + w.length := by
  have hle := h.le
  rw [← h.slice_eq, length_slice h.le h.le_size]
  omega

/-- Two words are next to each other, so each is a neighbour of the other
one. -/
theorem WordAt.cut (h : WordAt text i j b (u ++ v) a) :
    WordAt text i (i + u.length) b u (v.head?.or a) ∧
      WordAt text (i + u.length) j (u.getLast?.or b) v a := by
  obtain ⟨hle, hu, hv, hlast, hhead⟩ := slice_cut h.le h.le_size h.slice_eq
  rw [h.before_eq] at hlast
  rw [h.after_eq] at hhead
  have hsize := h.le_size
  exact ⟨⟨Nat.le_add_right _ _, by omega, hu, h.before_eq, hhead⟩,
    ⟨hle, hsize, hv, hlast, h.after_eq⟩⟩

/-- A part of the text that an expression spells is passed on a way that makes
the same marks. This is shown for every plan and every stop, since the parts of
the expression have their own. -/
theorem Spells.way {r : Regex} {ms : Marks}
    (h : Spells r i b w a ms) {p : Plan} (hp : p.regex = r)
    (hat : WordAt text i j b w a) : ∃ t, Way text p i j t ∧ t.marks = ms := by
  induction h generalizing p j with
  | empty =>
      obtain rfl := hat.stop_eq
      cases p with
      | empty n => exact ⟨_, .empty n _, rfl⟩
      | _ => cases hp
  | one hs =>
      obtain rfl := hat.stop_eq
      cases p with
      | one n s =>
          cases hp
          obtain ⟨c, hc, heq⟩ := slice_eq_cons (Nat.lt_succ_self _) hat.le_size
          obtain ⟨rfl, -⟩ := List.cons.inj (hat.slice_eq.symm.trans heq)
          exact ⟨_, .one n hc hs, rfl⟩
      | _ => cases hp
  | look hx =>
      obtain rfl := hat.stop_eq
      cases p with
      | look n x =>
          cases hp
          rw [← hat.before_eq, ← hat.after_eq] at hx
          exact ⟨_, .look n hx, rfl⟩
      | _ => cases hp
  | group g h ih =>
      cases p with
      | group n g' p =>
          cases hp
          obtain ⟨t, ht, rfl⟩ := ih rfl hat
          refine ⟨_, .group n _ ht, ?_⟩
          rw [← hat.stop_eq]
          rfl
      | _ => cases hp
  | altLeft h ih =>
      cases p with
      | alt n p q =>
          cases hp
          obtain ⟨t, ht, rfl⟩ := ih rfl hat
          exact ⟨_, .altLeft n ht, rfl⟩
      | _ => cases hp
  | altRight h ih =>
      cases p with
      | alt n p q =>
          cases hp
          obtain ⟨t, ht, rfl⟩ := ih rfl hat
          exact ⟨_, .altRight n ht, rfl⟩
      | _ => cases hp
  | stop =>
      obtain rfl := hat.stop_eq
      cases p with
      | star n greedy p => exact ⟨_, .stop n _ greedy p, rfl⟩
      | _ => cases hp
  | seq h h' ih ih' =>
      cases p with
      | seq n p q =>
          cases hp
          obtain ⟨t, ht, rfl⟩ := ih rfl hat.cut.1
          obtain ⟨t', ht', rfl⟩ := ih' rfl hat.cut.2
          exact ⟨_, .seq n ht ht', rfl⟩
      | _ => cases hp
  | round h h' ih ih' =>
      cases p with
      | star n greedy p =>
          cases hp
          obtain ⟨t, ht, rfl⟩ := ih rfl hat.cut.1
          obtain ⟨t', ht', rfl⟩ := ih' (p := .star n _ p) rfl hat.cut.2
          exact ⟨_, .round ht ht', rfl⟩
      | _ => cases hp
  | plus h h' ih ih' =>
      cases p with
      | plus n greedy p =>
          cases hp
          obtain ⟨t, ht, rfl⟩ := ih rfl hat.cut.1
          obtain ⟨t', ht', rfl⟩ := ih' (p := .star (n + 1) _ p) rfl hat.cut.2
          exact ⟨_, .plus ht ht', rfl⟩
      | _ => cases hp

end

theorem Takes.way {text : Array Char} {p : Plan} {i j : Nat} {ms : Marks}
    (h : Takes text p.regex i j ms) : ∃ t, Way text p i j t ∧ t.marks = ms :=
  h.spells.way rfl ⟨h.le, h.le_size, rfl, rfl, rfl⟩

/-- A pattern can match what its expression spells. -/
theorem canMatch_iff_takes {p : Pattern} {text : Array Char} {i j : Nat} :
    p.CanMatch text i j ↔ ∃ ms, Takes text p.engine.plan.regex i j ms := by
  constructor
  · rintro ⟨hi, t, ht⟩
    exact ⟨t.marks, ht.takes hi⟩
  · rintro ⟨ms, h⟩
    obtain ⟨t, ht, -⟩ := h.way
    have hle := h.le
    have hsize := h.le_size
    exact ⟨by omega, t, ht⟩

end Codemod.Pattern
