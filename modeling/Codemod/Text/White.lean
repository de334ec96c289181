import Codemod.Text.Ranges

/-!
# White space

The characters with the property `White_Space`: what separates tokens of a
template and what `\s` matches.
-/

namespace Codemod.Text

/-- White space: tab, line feed, vertical tab, form feed, carriage return,
space, and the blanks outside ASCII. -/
def white : Ranges := [ (0x9, 0xd), (0x20, 0x20), (0x85, 0x85),
  (0xa0, 0xa0), (0x1680, 0x1680), (0x2000, 0x200a),
  (0x2028, 0x2029), (0x202f, 0x202f), (0x205f, 0x205f), (0x3000, 0x3000)
]

/-- The character is white space. -/
def isWhite (c : Char) : Bool :=
  white.has c.toNat

end Codemod.Text
