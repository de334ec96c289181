/-!
# Escaping

A text is turned into a pattern that matches just this text by a backslash
before every character with a meaning of its own.
-/

namespace Codemod.Pattern

/-- The characters that mean something in a pattern, somewhere. -/
def metaChars : List Char :=
  ['\\', '.', '+', '*', '?', '(', ')', '|', '[', ']', '\x7b', '\x7d', '^', '$',
    '#', '&', '-', '~']

/-- The character means something in a pattern. -/
def isMeta (c : Char) : Bool :=
  metaChars.contains c

/-- The pattern of a single character. -/
def escapeChar (c : Char) : List Char :=
  if isMeta c then ['\\', c] else [c]

/-- The pattern that matches exactly the text. -/
def escape (cs : List Char) : List Char :=
  cs.flatMap escapeChar

end Codemod.Pattern
