import Codemod.Pattern.Reader.State

/-!
# Reading bracket classes

A class lists characters, ranges and properties. A dash that leads or ends it,
and a closing bracket right at its start, stand for themselves. Classes within
classes and operators on classes are not part of the language.
-/

namespace Codemod.Pattern.Reader

/-- Add an atom to a class. -/
def OpenClass.add (b : OpenClass) (a : Atom) : OpenClass :=
  match a with
  | .char c => { b with items := .range c c :: b.items, phase := .between }
  | .entry i => { b with items := i :: b.items, phase := .between }

/-- Add a range to a class. Its ends are characters in ascending order. -/
def OpenClass.addRange (b : OpenClass) (lo hi : Atom) :
    Except Fault OpenClass :=
  match lo, hi with
  | .char l, .char h =>
    if l ≤ h then
      .ok { b with items := .range l h :: b.items, phase := .between }
    else
      .error .badClass
  | _, _ => .error .badClass

/-- End a class and append it to the sequence. A class of several items nests
one deeper. -/
def State.closeClass (st : State) (b : OpenClass) : State :=
  st.push {
    body := .ofSet (.ofItems b.items.reverse b.negated st.flags.ignoreCase)
    depth := if b.items.length < 2 then 1 else 2 }

/-- A character of a class where a new atom may begin. -/
def stepBetween (st : State) (b : OpenClass) (c : Char) : Except Fault State :=
  match c with
  | ']' => .ok (st.closeClass b)
  | '[' => .error .badClass
  | '\\' => .ok (st.enter (.escape (.bracket b)))
  | c => .ok (st.enter (.bracket { b with phase := .atom (.char c) true }))

/-- A character among those that may lead a class: dashes, and a bracket that
is the first. -/
def stepLeading (st : State) (b : OpenClass) (c : Char) : Except Fault State :=
  if c == '-' then
    .ok (st.enter (.bracket
        { b with items := .range '-' '-' :: b.items, phase := .leading }))
  else if c == ']' && b.items.isEmpty then
    .ok (st.enter
      (.bracket { b with items := [.range ']' ']'], phase := .between }))
  else
    stepBetween st { b with phase := .between } c

/-- Two equal characters of these, one after the other, are an operator on
classes. Operators are not part of the language. -/
def isClassOperator (c : Char) : Bool :=
  c == '&' || c == '-' || c == '~'

/-- A character of a class. -/
def stepBracket (st : State) (b : OpenClass) (c : Char) : Except Fault State :=
  match b.phase with
  | .opened =>
    if c == '^' then
      .ok (st.enter (.bracket { b with negated := true, phase := .leading }))
    else stepLeading st b c
  | .leading => stepLeading st b c
  | .between => stepBetween st b c
  | .atom a plain =>
    let doubled := match a with
      | .char d => plain && isClassOperator d && c == d
      | .entry _ => false
    if doubled then .error .badClass
    else if c == '-' then
      .ok (st.enter (.bracket { b with phase := .dashed a }))
    else
      stepBetween st (b.add a) c
  | .dashed a =>
    match c with
    | ']' => .ok (st.closeClass ((b.add a).add (.char '-')))
    | '-' => .error .badClass
    | '\\' => .ok (st.enter (.escape (.bracket b)))
    | c => (b.addRange a (.char c)).map fun b => st.enter (.bracket b)

/-- Put an atom that was written as an escape into a class. -/
def State.classAtom (st : State) (b : OpenClass) (a : Atom) :
    Except Fault State :=
  match b.phase with
  | .dashed lo => (b.addRange lo a).map fun b => st.enter (.bracket b)
  | _ => .ok (st.enter (.bracket { b with phase := .atom a false }))

end Codemod.Pattern.Reader
