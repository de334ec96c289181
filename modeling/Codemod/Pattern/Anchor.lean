import Codemod.Text.WordChar

/-!
# Anchors

Conditions on a place of a text. They look at the character before the place
and at the one after it and consume neither.
-/

namespace Codemod.Pattern

/-- A condition on a place. -/
inductive Anchor where
  | textStart
  | textEnd
  | lineStart
  | lineEnd
  | wordBoundary
  | noWordBoundary
  | wordStart
  | wordEnd
  deriving Repr, DecidableEq

namespace Anchor

/-- There is a word character. -/
def isWord? (c : Option Char) : Bool :=
  c.any Text.isWord

/-- The condition holds between the two neighbours. A neighbour is missing at
an end of the text; only the line feed ends a line. -/
def holds (a : Anchor) (before after : Option Char) : Bool :=
  match a with
  | .textStart => before.isNone
  | .textEnd => after.isNone
  | .lineStart => before.all (· == '\n')
  | .lineEnd => after.all (· == '\n')
  | .wordBoundary => isWord? before != isWord? after
  | .noWordBoundary => isWord? before == isWord? after
  | .wordStart => !isWord? before && isWord? after
  | .wordEnd => isWord? before && !isWord? after

end Anchor

end Codemod.Pattern
