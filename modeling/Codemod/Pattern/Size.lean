import Codemod.Pattern.Form
import Codemod.Pattern.Size.Set
import Codemod.Pattern.Size.Words

/-!
# The size of a pattern

A short pattern can stand for a very long expression, so a pattern is refused
if one of the two automata that read it, from left to right and from right to
left, would be too large. For most patterns a bound on the size settles that.
-/

namespace Codemod.Pattern.Form

/-- The bytes of a text. -/
def bytes (cs : List Char) : List Nat :=
  cs.flatMap fun c => (String.utf8EncodeChar c).map (·.toNat)

/-- The texts of some forms that are all plain texts. -/
def texts? (fs : List Form) : Option (List (List Char)) :=
  fs.mapM fun f => match f with
    | .text cs => some cs
    | _ => none

/-- Count the states of a choice: after the second branch the state that
chooses, and the place where the branches meet. -/
def choose : List (Tally → Tally) → Tally → Tally
  | [], t => t
  | [p], t => p t
  | p :: q :: ps, t =>
      ps.foldl (fun t p => p t) (((q (p t)).choosing (2 + ps.length)).plain 1)

/-- Count the states of a form whose branches are counted by `parts`. -/
def whole (d : Direction) (f : Form) (parts : List (Tally → Tally)) :
    Tally → Tally :=
  match parts, texts? f.branches with
  | _ :: _ :: _, some ws =>
    let ws := ws.map bytes
    Tally.words (match d with
      | .forward => ws
      | .backward => ws.map List.reverse)
  | _, _ => choose parts

/-- Count the states of a repetition. -/
def rounds (lo : Nat) (hi : Option Nat) (advances : Bool)
    (body : Tally → Tally) (t : Tally) :
    Tally :=
  match lo, hi with
  | 0, some 1 => (body (t.choosing 2)).plain 1
  | 0, none =>
    if advances then body (t.choosing 2)
      else (((body t).choosing 2).choosing 2).plain 1
  | lo, none => (t.times lo body).choosing 2
  | lo, some hi =>
    if lo = hi then t.times lo body
    else
      let t := if lo = 0 then t.plain 1 else t.times lo body
      (t.plain 1).times (hi - lo) fun t => body (t.choosing 2)

/-- The branches of a form, each as the way to count its states. -/
def tallies (d : Direction) : Form → List (Tally → Tally)
  | .empty | .look _ => [(·.plain 1)]
  | .text cs => let n := (bytes cs).length; [(·.plain n)]
  | .set s => [s.tally d]
  | .group _ f =>
    let body := whole d f (tallies d f)
    match d with
    | .forward => [fun t => (body (t.plain 1)).plain 1]
    | .backward => [body]
  | .seq f g =>
    let first := whole d f (tallies d f)
    let second := whole d g (tallies d g)
    match d with
    | .forward => [fun t => second (first t)]
    | .backward => [fun t => first (second t)]
  | .alt f g => whole d f (tallies d f) :: tallies d g
  | .rep lo hi _ f => [rounds lo hi f.advances (whole d f (tallies d f))]

/-- A match can only begin at the start of the text. -/
def fromStart : Form → Bool
  | .look a => a == .textStart
  | .group _ f => f.fromStart
  | .seq f g => f.fromStart || (f.onlyEmpty && g.fromStart)
  | .alt f g => f.fromStart && g.fromStart
  | .rep lo _ _ f => 0 < lo && f.fromStart
  | .empty | .text _ | .set _ => false

/-- A match can only end at the end of the text. -/
def toEnd : Form → Bool
  | .look a => a == .textEnd
  | .group _ f => f.toEnd
  | .seq f g => g.toEnd || (g.onlyEmpty && f.toEnd)
  | .alt f g => f.toEnd && g.toEnd
  | .rep lo _ _ f => 0 < lo && f.toEnd
  | .empty | .text _ | .set _ => false

/-- The automaton of a form: a loop over any byte in front of it, unless a
match is tied to the end where it begins, and a state where it ends. Read
forward, the match as a whole is a group. -/
def tally (d : Direction) (f : Form) : Tally :=
  let anchored := match d with
    | .forward => f.fromStart
    | .backward => f.toEnd
  let front : Tally := if anchored then ({} : Tally).plain 1
    else ((({} : Tally).choosing 2).plain 1).reading 1
  let whole := whole d f (tallies d f)
  match d with
  | .forward => (whole (front.plain 1)).plain 2
  | .backward => (whole front).plain 1

/-- A size that the states of a form do not exceed. -/
def sizeBound : Form → Nat
  | .empty | .look _ => 32
  | .text cs => 96 * (bytes cs).length
  | .set s => s.sizeBound
  | .group _ f => f.sizeBound + 64
  | .seq f g => f.sizeBound + g.sizeBound
  | .alt f g => f.sizeBound + g.sizeBound + 128
  | .rep lo hi _ f => max (hi.getD lo) (max lo 1) * (f.sizeBound + 40) + 128

/-- The pattern is not too large. -/
def fits (f : Form) : Bool :=
  f.sizeBound + 256 ≤ Tally.maxSize
    || (!(f.tally .forward).isOver && !(f.tally .backward).isOver)

end Codemod.Pattern.Form
