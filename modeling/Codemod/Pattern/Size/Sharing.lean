import Std.Data.HashMap

/-!
# Tables of shared states

Equal states of an automaton are made once. A table remembers the states made
so far by what they consist of. It has a fixed number of places, and what is
remembered at a place is forgotten when something else comes to the same place;
so a state may be made twice.
-/

namespace Codemod.Pattern

/-- The numbers that tell what a state consists of. -/
abbrev StateKey := List Nat

/-- A table with a number of places. A used place holds the key of a state and
its number. -/
structure Sharing where
  places : Nat
  used : Std.HashMap Nat (StateKey × Nat) := ∅

namespace Sharing

/-- A key as one word of 64 bits: each number in turn is combined by exclusive
or, and the result is multiplied by a prime. -/
def digest (key : StateKey) : UInt64 :=
  key.foldl (fun h x => (h ^^^ x.toUInt64) * 1099511628211) 14695981039346656037

/-- The place of a key. -/
def place (s : Sharing) (key : StateKey) : Nat :=
  (digest key).toNat % s.places

/-- The state that is remembered for a key. -/
def find? (s : Sharing) (key : StateKey) : Option Nat :=
  match s.used[s.place key]? with
  | some (known, state) => if known = key then some state else none
  | none => none

/-- Remember a state. -/
def note (s : Sharing) (key : StateKey) (state : Nat) : Sharing :=
  { s with used := s.used.insert (s.place key) (key, state) }

end Sharing

end Codemod.Pattern
