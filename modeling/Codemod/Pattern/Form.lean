import Codemod.Pattern.Regex

/-!
# Patterns in normal form

What the reader makes of a pattern's text. The functions of this module that
put forms together keep them normal: neighbouring characters are one text,
sequences and alternatives are flat, a choice between single characters or
between sets is a set, and branches that all begin alike are a sequence of what
they share and a choice of what they do not share. The last rule is part of the
meaning of a pattern: what is shared decides how far it goes before a branch is
chosen.

A sequence or alternative of more than two members is nested to the right.
`Form.regex` writes the counts of the repetitions out.
-/

namespace Codemod.Pattern

/-- A pattern in normal form. -/
inductive Form where
  | empty
  | text (cs : List Char)
  | set (s : CharSet)
  | look (a : Anchor)
  | group (i : Nat) (f : Form)
  | seq (f g : Form)
  | alt (f g : Form)
  | rep (lo : Nat) (hi : Option Nat) (greedy : Bool) (f : Form)
  deriving Repr, DecidableEq

namespace Form

/-- A set of characters. A set of one character is a text. -/
def ofSet (s : CharSet) : Form :=
  match s.single? with
  | some c => .text [c]
  | none => .set s

/-- The members of a sequence. -/
def parts : Form → List Form
  | .empty => []
  | .seq f g => f :: g.parts
  | f => [f]

/-- The members of an alternative. -/
def branches : Form → List Form
  | .alt f g => f :: g.branches
  | f => [f]

/-- The sequence of some members, as they are. -/
def ofParts : List Form → Form
  | [] => .empty
  | [f] => f
  | f :: fs => .seq f (ofParts fs)

/-- The alternative of some members, as they are; without members it is the set
of no character. -/
def ofBranches : List Form → Form
  | [] => .set ⟨[]⟩
  | [f] => f
  | f :: fs => .alt f (ofBranches fs)

/-- Put a member in front of others. Two texts become one. -/
def join (f : Form) (fs : List Form) : List Form :=
  match f, fs with
  | .text a, .text b :: gs => .text (a ++ b) :: gs
  | f, gs => f :: gs

/-- One form after the other. -/
def sequence (fs : List Form) : Form :=
  ofParts ((fs.flatMap parts).foldr join [])

/-- The character of a text of one character. -/
def char? : Form → Option Char
  | .text [c] => some c
  | _ => none

/-- The set that a form is. -/
def set? : Form → Option CharSet
  | .set s => some s
  | _ => none

/-- A choice between forms. Single characters are gathered in a set, and so are
sets. -/
def choice (fs : List Form) : Form :=
  let bs := fs.flatMap branches
  if bs.length < 2 then ofBranches bs
  else
    match bs.mapM char?, bs.mapM set? with
    | some cs, _ =>
        ofSet (cs.foldr (fun c s => (CharSet.single c).union s) ⟨[]⟩)
    | none, some ss => ofSet (ss.foldr CharSet.union ⟨[]⟩)
    | none, none => ofBranches bs

/-- The longest list that both begin with. -/
def common : List Form → List Form → List Form
  | f :: fs, g :: gs => if f = g then f :: common fs gs else []
  | _, _ => []

/-- The members that all sequences of a list begin with. There are none if one
of the forms is no sequence. -/
def shared : List Form → List Form
  | [] => []
  | .seq f g :: fs =>
    fs.foldl (fun acc h => match h with
      | .seq _ _ => common acc h.parts
      | _ => []) (Form.seq f g).parts
  | _ :: _ => []

/-- A choice between forms, behind what they share. -/
def alternative (fs : List Form) : Form :=
  let bs := fs.flatMap branches
  match choice bs with
  | .alt f g =>
    let front := shared bs
    if front.isEmpty then .alt f g
    else sequence
      (front ++ [choice (bs.map fun b => ofParts (b.parts.drop front.length))])
  | f => f

/-- Nothing but the empty text can match. -/
def onlyEmpty : Form → Bool
  | .empty | .look _ => true
  | .text _ | .set _ => false
  | .group _ f => f.onlyEmpty
  | .seq f g | .alt f g => f.onlyEmpty && g.onlyEmpty
  | .rep _ _ _ f => f.onlyEmpty

/-- The bounds of a repetition as they are carried out: what can only match the
empty text is repeated at most once. -/
def bounds (lo : Nat) (hi : Option Nat) (f : Form) : Nat × Option Nat :=
  if f.onlyEmpty then (min lo 1, some ((hi.getD 1).min 1)) else (lo, hi)

/-- A repetition. What is repeated zero times vanishes, its groups included. -/
def repeated (lo : Nat) (hi : Option Nat) (greedy : Bool) (f : Form) : Form :=
  match bounds lo hi f with
  | (_, some 0) => .empty
  | (1, some 1) => f
  | (lo, hi) => .rep lo hi greedy f

/-- The least number of characters of a match, and none if a part of the form
is a set of no character. -/
def minLength : Form → Option Nat
  | .empty | .look _ => some 0
  | .text cs => some cs.length
  | .set s => if s.ranges.isEmpty then none else some 1
  | .group _ f => f.minLength
  | .seq f g => do return (← f.minLength) + (← g.minLength)
  | .alt f g => do return min (← f.minLength) (← g.minLength)
  | .rep lo _ _ f => do return lo * (← f.minLength)

/-- Every match takes a character. -/
def advances (f : Form) : Bool :=
  f.minLength.any (0 < ·)

/-- The expression with all counts written out. -/
def regex : Form → Regex
  | .empty => .empty
  | .text cs => .text cs
  | .set s => .one s
  | .look a => .look a
  | .group i f => .group i f.regex
  | .seq f g => .seq f.regex g.regex
  | .alt f g => .alt f.regex g.regex
  | .rep lo hi greedy f => .rep lo hi f.advances greedy f.regex

/-- The numbers of the groups that occur. -/
def groups : Form → List Nat
  | .empty | .text _ | .set _ | .look _ => []
  | .group i f => i :: f.groups
  | .seq f g | .alt f g => f.groups ++ g.groups
  | .rep _ _ _ f => f.groups

end Form

end Codemod.Pattern
