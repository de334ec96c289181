import Codemod.Pattern

/-!
# Ways through a pattern, and which of them is preferred

This module says what a match is without saying how it is found. A way leads
through a plan from one place of a text to another; it is built along the
expression, one constructor for each way to pass a part of it. What it leaves
behind is its trail: the steps that it passed, each with the place where it
passed it, the side it took at each choice, and the marks of the groups.

Of two ways the preferred one is the one that takes the preferred side at the
first choice where they differ: the earlier branch of an alternative, another
round of a greedy repetition, the end of a lazy one. A repetition whose body
can match the empty text would have no preferred way, as each empty round could
be followed by another one. So only direct ways are compared: ways that never
come twice to the same step at the same place.
-/

namespace Codemod.Pattern

/-- What a way leaves behind, in the order in which it came about. A choice is
`true` where the side that is not preferred was taken. -/
@[ext]
structure Trail where
  steps : List (Nat × Nat) := []
  choices : List Bool := []
  marks : Marks := []

namespace Trail

instance : Append Trail :=
  ⟨fun t u => ⟨t.steps ++ u.steps, t.choices ++ u.choices, t.marks ++ u.marks⟩⟩

/-- The trail of step `n` at place `i`. -/
def step (n i : Nat) : Trail := { steps := [(n, i)] }

/-- The trail of a step that chooses a side. -/
def choice (n i : Nat) (second : Bool) :
    Trail := { steps := [(n, i)], choices := [second] }

/-- The trail of a step that marks its place. -/
def mark (n i key : Nat) : Trail := { steps := [(n, i)], marks := [(key, i)] }

@[simp] theorem steps_append (t u : Trail) :
    (t ++ u).steps = t.steps ++ u.steps := rfl

@[simp] theorem choices_append (t u : Trail) :
    (t ++ u).choices = t.choices ++ u.choices := rfl

@[simp] theorem marks_append (t u : Trail) :
    (t ++ u).marks = t.marks ++ u.marks := rfl

theorem append_assoc (t u v : Trail) : t ++ u ++ v = t ++ (u ++ v) := by
  ext1 <;> simp

@[simp] theorem append_empty (t : Trail) : t ++ {} = t := by
  ext1 <;> simp

@[simp] theorem empty_append (t : Trail) : {} ++ t = t := by
  ext1 <;> simp

/-- No step is passed twice at the same place. -/
def Direct (t : Trail) : Prop := t.steps.Nodup

end Trail

/-- One list of choices is preferred to another: where they differ first, it
takes the preferred side and the other does not. -/
inductive Before : List Bool → List Bool → Prop where
  | fork (a b : List Bool) : Before (false :: a) (true :: b)
  | same {a b : List Bool} (c : Bool) : Before a b → Before (c :: a) (c :: b)

theorem Before.append_left {a b : List Bool} (h : Before a b) :
    ∀ c : List Bool, Before (c ++ a) (c ++ b)
  | [] => h
  | x :: c => .same x (h.append_left c)

theorem Before.asymm {a b : List Bool} (h : Before a b) : ¬ Before b a := by
  induction h with
  | fork a b =>
      intro h
      cases h
  | same c _ ih =>
      intro h
      cases h with
      | same _ h => exact ih h

/-- A way through a plan from one place of the text to another, with its trail.
After the first round of "one or more" the end of the body is the same choice
as the one of "any number". -/
inductive Way (text : Array Char) : Plan → Nat → Nat → Trail → Prop where
  | empty (n i : Nat) : Way text (.empty n) i i (.step n i)
  | one {s : CharSet} {c : Char} {i : Nat} (n : Nat)
      (hc : text[i]? = some c) (hs : s.has c = true) :
      Way text (.one n s) i (i + 1) (.step n i)
  | look {a : Anchor} {i : Nat} (n : Nat)
      (h : a.holds (before? text i) text[i]? = true) :
      Way text (.look n a) i i (.step n i)
  | group {p : Plan} {i j : Nat} {t : Trail} (n g : Nat)
      (h : Way text p i j t) :
      Way text (.group n g p) i j
        (.mark n i (2 * g) ++ t ++ .mark (n + 1) j (2 * g + 1))
  | seq {p q : Plan} {i j k : Nat} {t u : Trail} (n : Nat)
      (h : Way text p i j t) (h' : Way text q j k u) :
      Way text (.seq n p q) i k (.step n i ++ t ++ u)
  | altLeft {p q : Plan} {i j : Nat} {t : Trail}
      (n : Nat) (h : Way text p i j t) :
      Way text (.alt n p q) i j (.choice n i false ++ t)
  | altRight {p q : Plan} {i j : Nat} {t : Trail}
      (n : Nat) (h : Way text q i j t) :
      Way text (.alt n p q) i j (.choice n i true ++ t)
  | stop (n i : Nat) (greedy : Bool) (p : Plan) :
      Way text (.star n greedy p) i i (.choice n i greedy)
  | round {p : Plan} {i j k : Nat} {t u : Trail} {n : Nat} {greedy : Bool}
      (h : Way text p i j t) (h' : Way text (.star n greedy p) j k u) :
      Way text (.star n greedy p) i k (.choice n i (!greedy) ++ t ++ u)
  | plus {p : Plan} {i j k : Nat} {t u : Trail} {n : Nat} {greedy : Bool}
      (h : Way text p i j t) (h' : Way text (.star (n + 1) greedy p) j k u) :
      Way text (.plus n greedy p) i k (.step n i ++ t ++ u)

/-- The preferred way of those that start at its place: it is direct, and it is
preferred to every other direct way from there. -/
structure Preferred (text : Array Char) (p : Plan) (i j : Nat) (t : Trail) :
    Prop where
  way : Way text p i j t
  direct : t.Direct
  best : ∀ j' u, Way text p i j' u → u.Direct → (j' = j ∧ u = t) ∨
    Before t.choices u.choices

theorem Preferred.unique {text : Array Char}
    {p : Plan} {i j j' : Nat} {t t' : Trail}
    (h : Preferred text p i j t) (h' : Preferred text p i j' t') :
    j' = j ∧ t' = t := by
  rcases h.best j' t' h'.way h'.direct with heq | hb
  · exact heq
  · rcases h'.best j t h.way h.direct with ⟨hj, ht⟩ | hb'
    · exact ⟨hj.symm, ht.symm⟩
    · exact absurd hb' hb.asymm

theorem Way.le {text : Array Char} {p : Plan} {i j : Nat} {t : Trail}
    (h : Way text p i j t) :
    i ≤ j := by
  induction h <;> omega

theorem Way.le_size {text : Array Char} {p : Plan} {i j : Nat} {t : Trail}
    (h : Way text p i j t) (hi : i ≤ text.size) : j ≤ text.size := by
  induction h with
  | one n hc hs =>
      obtain ⟨hlt, -⟩ := Array.getElem?_eq_some_iff.mp hc
      omega
  | empty | look | stop => exact hi
  | group _ _ _ ih | altLeft _ _ ih | altRight _ _ ih => exact ih hi
  | seq _ _ _ ih ih' | round _ _ ih ih' | plus _ _ ih ih' => exact ih' (ih hi)

end Codemod.Pattern
