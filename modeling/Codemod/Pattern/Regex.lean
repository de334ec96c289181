import Codemod.Pattern.Anchor
import Codemod.Pattern.CharSet

/-!
# Regular expressions with preference

The core form of a pattern. Of the repetitions it has two, "any number" and
"one or more"; optional parts and counted repetitions are written with the
other constructors. The order of the branches of an alternative, and whether a
repetition is greedy, say which of several ways to match is preferred.
-/

namespace Codemod.Pattern

/-- A regular expression. Groups are numbered; group 0 is the whole match. -/
inductive Regex where
  | empty
  | one (s : CharSet)
  | look (a : Anchor)
  | group (i : Nat) (r : Regex)
  | seq (r s : Regex)
  | alt (r s : Regex)
  | star (greedy : Bool) (r : Regex)
  | plus (greedy : Bool) (r : Regex)
  deriving Repr, DecidableEq

namespace Regex

/-- The characters of a text, one after the other. -/
def text : List Char → Regex
  | [] => .empty
  | c :: cs => .seq (.one (.single c)) (text cs)

/-- `r` or nothing; a greedy option tries `r` first. -/
def opt (greedy : Bool) (r : Regex) : Regex :=
  if greedy then .alt r .empty else .alt .empty r

/-- `n` times `r`. -/
def copies (r : Regex) : Nat → Regex
  | 0 => .empty
  | n + 1 => .seq r (copies r n)

/-- At most `n` times `r`, each further one an option inside the one before. -/
def upTo (greedy : Bool) (r : Regex) : Nat → Regex
  | 0 => .empty
  | n + 1 => opt greedy (.seq r (upTo greedy r n))

/-- Any number of `r`. If `r` always takes a character this is a plain loop. A
body that may take none is put as an option around "one or more", so that it is
entered once and not passed over. -/
def loop (advances greedy : Bool) (r : Regex) : Regex :=
  if advances then .star greedy r else opt greedy (.plus greedy r)

/-- At least `lo` and, with a bound, at most `hi` times `r`; `advances` tells
that `r` always takes a character. -/
def rep (lo : Nat) (hi : Option Nat) (advances greedy : Bool) (r : Regex) :
    Regex :=
  match hi, lo with
  | some h, _ => .seq (copies r lo) (upTo greedy r (h - lo))
  | none, 0 => loop advances greedy r
  | none, n + 1 => .seq (copies r n) (.plus greedy r)

end Regex

end Codemod.Pattern
