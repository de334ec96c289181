import Codemod.Pattern.Reader.State
import Codemod.Text.Letter

/-!
# Reading the heads of groups

The name of a group that captures, and the switches that a group sets for its
own inside or, without an inside, for the rest of the group around it.
-/

namespace Codemod.Pattern.Reader

/-- A character that a group name may hold; the first one is a letter or the
underscore. -/
def isNameChar (c : Char) (first : Bool) : Bool :=
  c == '_' || Text.isAlphabetic c
    || (!first && (c == '.' || c == '[' || c == ']' || Text.isNumeric c))

/-- A character of a group name, which is kept last character first. -/
def stepName (st : State) (name : List Char) (c : Char) : Except Fault State :=
  if c == '>' then
    if name.isEmpty then .error .badGroupName
    else if st.names.contains (some name.reverse) then
      .error .duplicateGroupName
    else
      .ok (st.openCapture (some name.reverse))
  else if isNameChar c name.isEmpty then .ok (st.enter (.groupName (c :: name)))
  else .error .badGroupName

/-- The switches after the given changes, which stand last first. What stands
after the minus is switched off. -/
def changeFlags (f : Flags) (given : List FlagItem) : Flags :=
  (given.foldr (fun x (f, on) =>
    match x with
    | .minus => (f, false)
    | .ignoreCase => ({ f with ignoreCase := on }, on)
    | .multiLine => ({ f with multiLine := on }, on)
    | .dotAll => ({ f with dotAll := on }, on)) (f, true)).1

/-- The part of the switches that a character stands for. -/
def flagItem? (c : Char) : Option FlagItem :=
  match c with
  | '-' => some .minus
  | 'i' => some .ignoreCase
  | 'm' => some .multiLine
  | 's' => some .dotAll
  | _ => none

/-- A character of the switches in the head of a group, which are kept last
first. -/
def stepFlags (st : State) (given : List FlagItem) (c : Char) :
    Except Fault State :=
  let dangling := given.head? == some .minus
  match c with
  | ':' =>
    if dangling then .error .badGroupHead
    else .ok (st.openGroup none (changeFlags st.flags given))
  | ')' =>
    if dangling || given.isEmpty then .error .badGroupHead
    else .ok ({ st with flags := changeFlags st.flags given }.push
      { body := .empty, repeatable := false })
  | c =>
    match flagItem? c with
    | some x =>
      if given.contains x then .error .badGroupHead
      else .ok (st.enter (.groupFlags (x :: given)))
    | none => .error .badGroupHead

end Codemod.Pattern.Reader
