import Codemod.Pattern.Reader.Count
import Codemod.Pattern.Reader.Escape
import Codemod.Pattern.Reader.Group
import Codemod.Pattern.Size

/-!
# Reading patterns

The text of a pattern is read one character at a time: `Reader.step` takes the
state before a character to the state after it, and reading a text is a fold of
this step. So reading `xs ++ ys` is reading `ys` from where `xs` ended, which
is what statements about assembled patterns need.
-/

namespace Codemod.Pattern.Reader

/-- A character between items. -/
def stepItems (st : State) (c : Char) : Except Fault State :=
  match c with
  | '\\' => .ok (st.enter (.escape .items))
  | '(' => .ok (st.enter .groupStart)
  | ')' => st.closeGroup
  | '|' => .ok st.nextBranch
  | '[' => .ok (st.enter (.bracket {}))
  | '*' => st.quantify 0 none
  | '+' => st.quantify 1 none
  | '?' => if st.lazyable then .ok st.makeLazy else st.quantify 0 (some 1)
  | '\x7b' =>
    match st.items with
    | x :: _ =>
      if x.repeatable then .ok (st.enter (.count (.low none false)))
        else .error .missingOperand
    | [] => .error .missingOperand
  | '.' => .ok (st.pushSet (.dot st.flags.dotAll))
  | '^' =>
      .ok (st.pushAnchor
        (if st.flags.multiLine then .lineStart else .textStart))
  | '$' =>
      .ok (st.pushAnchor (if st.flags.multiLine then .lineEnd else .textEnd))
  | c => .ok (st.pushChar c)

/-- The greatest depth of nesting that is accepted. -/
def maxDepth : Nat := 250

/-- Read one character. -/
def step (st : State) (c : Char) : Except Fault State :=
  match st.mode with
  | .items => stepItems st c
  | .escape place => stepEscape st place c
  | .hexStart width place =>
    if c == '\x7b' then .ok (st.enter (.hexBraced 0 0 place))
      else stepHexFixed st width 0 place c
  | .hexFixed left value place => stepHexFixed st left value place c
  | .hexBraced digits value place => stepHexBraced st digits value place c
  | .groupStart =>
    if c == '?' then .ok (st.enter .groupQuestion)
      else stepItems (st.openCapture none) c
  | .groupQuestion =>
    match c with
    | 'P' => .ok (st.enter .groupNamed)
    | '<' => .ok (st.enter .groupAngle)
    | c => stepFlags st [] c
  | .groupNamed =>
      if c == '<' then .ok (st.enter (.groupName [])) else .error .badGroupHead
  | .groupAngle => stepName st [] c
  | .groupName name => stepName st name c
  | .groupFlags given => stepFlags st given c
  | .count k => stepCount st k c
  | .bracket b => stepBracket st b c

/-- What the text so far stands for, if it may end here: the form, and a name
or none for each group from group 0 on. -/
def finish (st : State) : Except Fault (Form × List (Option (List Char))) :=
  match st.mode, st.groups with
  | .items, [] =>
    let whole := st.content
    if maxDepth < whole.depth then .error .tooDeep
    else .ok (whole.form, st.names.reverse)
  | .items, _ :: _ => .error .unclosedGroup
  | _, _ => .error .unfinished

/-- Read a pattern, whatever its size. -/
def parse (flags : Flags) (source : List Char) :
    Except Fault (Form × List (Option (List Char))) := do
  finish (← source.foldlM step { flags })

/-- Read a pattern that is not too large. -/
def read (flags : Flags) (source : List Char) :
    Except Fault (Form × List (Option (List Char))) := do
  let (form, names) ← parse flags source
  if form.fits then return (form, names) else throw .tooLarge

end Codemod.Pattern.Reader
