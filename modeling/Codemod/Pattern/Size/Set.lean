import Codemod.Pattern.CharSet
import Codemod.Pattern.Size.Sharing
import Codemod.Pattern.Size.Tally
import Codemod.Text.Utf8Ranges

/-!
# The size of a set of characters

The part of an automaton that reads one character of a set. In a set of ASCII
characters it is a state with an edge for each range. In any other set it reads
the bytes of an encoding: from the first to the last, where states that lead
the same way are shared, or from the last to the first, where only what stands
at the front of an encoding is shared.
-/

namespace Codemod.Pattern

/-- The direction in which an automaton reads a text. -/
inductive Direction where
  | forward
  | backward
  deriving Repr, DecidableEq

namespace Tally

/-- A tally and the table of the states that can be shared. -/
structure Shared where
  tally : Tally
  table : Sharing

/-- Sequences that begin alike, with what they begin with; sequences of a set
stand in order. -/
def byFirst : List (List Text.ByteRange) →
    List (Text.ByteRange × List (List Text.ByteRange))
  | [] => []
  | [] :: ss => byFirst ss
  | (r :: rest) :: ss =>
    match byFirst ss with
    | (r', rests) :: groups =>
      if r = r' then (r, rest :: rests) :: groups
        else (r, [rest]) :: (r', rests) :: groups
    | [] => [(r, [rest])]

/-- The state that reads one of some sequences and goes on to `goal`: its
number, and the tally with it. Sequences have at most `depth` ranges. -/
def readForward (goal : Nat) :
    Nat → List (List Text.ByteRange) → Shared → Nat × Shared
  | 0, _, sh => (goal, sh)
  | depth + 1, ss, sh =>
    if ss.all (·.isEmpty) then (goal, sh)
    else
      let (edges, sh) := (byFirst ss).foldl (fun (edges, sh) (r, rests) =>
        let (next, sh) := readForward goal depth rests sh
        ((r, next) :: edges, sh)) (([] : List (Text.ByteRange × Nat)), sh)
      let key := edges.reverse.flatMap fun ((lo, hi), next) => [lo, hi, next]
      match sh.table.find? key with
      | some state => (state, sh)
      | none =>
        let state := sh.tally.states
        (state, {
          tally := sh.tally.reading edges.length
          table := sh.table.note key state })

/-- Count the states that read a set from the first byte to the last. -/
def forwardSet (ss : List (List Text.ByteRange)) (t : Tally) : Tally :=
  (readForward t.states 4 ss
    { tally := t.plain 1, table := { places := 10000 } }).2.tally

/-- Count the states that read a sequence from the last byte to the first and
go on to `goal`. -/
def readBackward (goal : Nat) (s : List Text.ByteRange) (sh : Shared) :
    Shared :=
  (s.foldl (fun (next, sh) (lo, hi) =>
    let key := [next, lo, hi]
    match sh.table.find? key with
    | some state => (state, sh)
    | none =>
      let state := sh.tally.states
      (state, { tally := sh.tally.plain 1, table := sh.table.note key state }))
        (goal, sh)).2

/-- Count the states that read a set from the last byte to the first. -/
def backwardSet (ss : List (List Text.ByteRange)) (t : Tally) : Tally :=
  let goal := t.states + 1
  let t := (t.choosing ss.length).plain 1
  (ss.foldl (fun sh s => readBackward goal s sh)
    { tally := t, table := { places := 1000 } }).tally

end Tally

namespace CharSet

/-- All characters are ASCII characters. -/
def isAscii (s : CharSet) : Bool :=
  s.ranges.all (·.2 < 0x80)

/-- The encodings of the characters. -/
def encodings (s : CharSet) : List (List Text.ByteRange) :=
  s.ranges.flatMap fun (lo, hi) => Text.utf8Ranges lo hi

/-- Count the states that read a character of the set. -/
def tally (d : Direction) (s : CharSet) : Tally → Tally :=
  if s.isAscii then fun t => (t.plain 1).reading s.ranges.length
  else
    let ss := s.encodings
    match d with
    | .forward => Tally.forwardSet ss
    | .backward => Tally.backwardSet ss

/-- A size that the states for a character of the set do not exceed: no state
shared. -/
def sizeBound (s : CharSet) : Nat :=
  if s.isAscii then 64 + 8 * s.ranges.length
  else s.encodings.foldl (fun n seq => n + 4 + 40 * seq.length) 64

end CharSet

end Codemod.Pattern
