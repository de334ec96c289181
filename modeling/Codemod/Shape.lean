import Codemod.Shape.Token

/-!
# Shapes

A shape is a pattern for a piece of code that does not care how the code was
laid out. Shapes are made from code templates and from slots that capture, and
are put together by `++`; between their pieces white space may stand.
-/

namespace Codemod

/-- A part of a shape: a token of code, a slot that captures what a pattern
matches, or the indentation of the line that the next piece starts, captured if
there is one. -/
inductive Piece where
  | token (t : Token)
  | slot (name pattern : List Char)
  | indent (name : List Char)
  deriving Repr, DecidableEq

namespace Piece

/-- The pattern of a piece. -/
def pattern : Piece → List Char
  | .token t => t.pattern
  | .slot name pattern => "(?P<".toList ++ name ++ ['>'] ++ pattern ++ [')']
  | .indent name => "(?:^(?P<".toList ++ name ++ ">[ \\t]*))?".toList

/-- The pattern of what may stand between a piece and the next: white space,
but nothing after an indentation, so that blank lines above it are not taken
in. -/
def joint : Piece → List Char
  | .indent _ => []
  | _ => "\\s*".toList

end Piece

/-- The pieces of a shape, in order. -/
structure Shape where
  pieces : List Piece := []
  deriving Repr, DecidableEq

namespace Shape

instance : Append Shape := ⟨fun s t => ⟨s.pieces ++ t.pieces⟩⟩

/-- The shape of a code template: its tokens. -/
def code (template : String) : Shape :=
  ⟨(Token.ofTemplate template.toList).map .token⟩

/-- A slot that captures, under a name, what a pattern matches. -/
def slot (name pattern : String) : Shape :=
  ⟨[.slot name.toList pattern.toList]⟩

/-- The indentation of a line, captured under a name. -/
def indent (name : String) : Shape :=
  ⟨[.indent name.toList]⟩

/-- The pattern of pieces in a row. -/
def join : List Piece → List Char
  | [] => []
  | [p] => p.pattern
  | p :: q :: ps => p.pattern ++ p.joint ++ join (q :: ps)

/-- The text of the pattern. -/
def pattern (s : Shape) : String :=
  String.ofList (join s.pieces)

end Shape

end Codemod
