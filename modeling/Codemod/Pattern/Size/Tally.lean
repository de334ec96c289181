/-!
# Counting the states of an automaton

A pattern stands for an automaton that reads a text byte by byte. The automaton
itself is never built; its states and edges are counted one after the other, in
the order in which they would be made, since the number of a state tells how
many there are before it.
-/

namespace Codemod.Pattern

/-- The states so far, and what their edges take in bytes. -/
structure Tally where
  states : Nat := 0
  edges : Nat := 0
  deriving Repr, DecidableEq

namespace Tally

/-- The size of the automaton in bytes. -/
def size (t : Tally) : Nat :=
  32 * t.states + t.edges

/-- The greatest size that is accepted, 10 MiB. -/
def maxSize : Nat := 10485760

/-- The automaton is too large already. -/
def isOver (t : Tally) : Bool :=
  maxSize < t.size

/-- `n` more states that lead to one place each. -/
def plain (t : Tally) (n : Nat) : Tally :=
  { t with states := t.states + n }

/-- A state with `n` edges, each for a range of bytes. -/
def reading (t : Tally) (n : Nat) : Tally :=
  { states := t.states + 1, edges := t.edges + 8 * n }

/-- A state that chooses between `n` ways to go on. -/
def choosing (t : Tally) (n : Nat) : Tally :=
  { states := t.states + 1, edges := t.edges + 4 * n }

/-- Count `n` copies of something. The count ends once the automaton is too
large. -/
def times (n : Nat) (part : Tally → Tally) (t : Tally) : Tally :=
  match n with
  | 0 => t
  | n + 1 => if t.isOver then t else times n part (part t)

end Tally

end Codemod.Pattern
