import Codemod.RoleName
import Codemod.Rule

/-!
# Replacement templates

A replacement written down as a list of parts: fixed text, and places for what
was captured.
-/

namespace Codemod

/-- A part of a replacement. -/
inductive Part where
  | text (s : String)
  | group (name : String)
  | optional (name fallback : String)
  | role (name : String)
  | lineEnding
  deriving Repr, DecidableEq

/-- The text of a part for one match. A group that has to be there and took no
part is an error. -/
def Part.produce (h : Hit) : Part → Except Error String
  | .text s => .ok s
  | .group name => h.group name
  | .optional name fallback => .ok ((h.group? name).getD fallback)
  | .role name => (h.group name).map fun s => String.ofList (bareRole s.toList)
  | .lineEnding => .ok h.lineEnding.text

/-- The parts of a replacement, in order. -/
abbrev Template := List Part

/-- The replacement for one match. The first part that fails decides. -/
def Template.produce : Template → Hit → Except Error String
  | [], _ => .ok ""
  | p :: ps, h => do
    let head ← p.produce h
    let rest ← Template.produce ps h
    return head ++ rest

end Codemod
