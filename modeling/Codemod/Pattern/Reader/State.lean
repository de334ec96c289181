import Codemod.Pattern.Fault
import Codemod.Pattern.Form

/-!
# The state of the pattern reader

The state holds the groups that are open, the finished branches and the items
of the innermost one, the switches in force, and a mode: between items, or
inside one of the longer forms (an escape, the head of a group, a count, a
bracket class).
-/

namespace Codemod.Pattern

/-- The switches that hold at a place of the pattern. -/
structure Flags where
  ignoreCase : Bool := false
  multiLine : Bool := false
  dotAll : Bool := false
  deriving Repr, DecidableEq

namespace Reader

/-- How often something is repeated, and whether more rounds are preferred. -/
structure Rounds where
  lo : Nat
  hi : Option Nat
  greedy : Bool := true

/-- A part of a sequence: a body that may be repeated, and the depth of its
nesting. A change of switches is an item too; it is the only kind that cannot
be repeated. -/
structure Item where
  body : Form
  rounds : Option Rounds := none
  depth : Nat := 0
  repeatable : Bool := true

/-- What an item stands for. -/
def Item.form (x : Item) : Form :=
  match x.rounds with
  | some r => .repeated r.lo r.hi r.greedy x.body
  | none => x.body

/-- The depth of several items that are put together. -/
def depthOf (xs : List Item) : Nat :=
  1 + xs.foldl (fun d y => max d y.depth) 0

/-- The items of a sequence, last item first, as one item. -/
def sequence : List Item → Item
  | [] => { body := .empty }
  | [x] => x
  | xs => { body := .sequence (xs.reverse.map Item.form), depth := depthOf xs }

/-- The branches of an alternative, last branch first, as one item. -/
def alternative : List Item → Item
  | [] => { body := .empty }
  | [x] => x
  | xs =>
      { body := .alternative (xs.reverse.map Item.form), depth := depthOf xs }

/-- A group that is still open, with what stands before it. -/
structure OpenGroup where
  capture : Option Nat
  items : List Item
  branches : List Item
  flags : Flags

/-- One side of a range in a class: a character, or an entry that cannot bound
a range. -/
inductive Atom where
  | char (c : Char)
  | entry (i : ClassItem)

/-- Where the reading of a class stands: right after the bracket, among the
dashes that may lead it, between atoms, after an atom (`plain` if it was
written without a backslash), after an atom and a dash. -/
inductive ClassPhase where
  | opened
  | leading
  | between
  | atom (a : Atom) (plain : Bool)
  | dashed (a : Atom)

/-- A bracket class that is still open; its items stand last first. -/
structure OpenClass where
  negated : Bool := false
  items : List ClassItem := []
  phase : ClassPhase := .opened

/-- What an escape is part of: a sequence, or a class. -/
inductive Place where
  | items
  | bracket (b : OpenClass)

/-- What an escape stands for. -/
inductive Escaped where
  | char (c : Char)
  | property (p : Property) (holds : Bool)
  | anchor (a : Anchor)

/-- Where the reading of a count stands. `ended` is set by a blank after the
digits. -/
inductive Count where
  | low (n : Option Nat) (ended : Bool)
  | comma (lo : Nat)
  | high (lo : Nat) (n : Option Nat) (ended : Bool)

/-- A part of the switches in the head of a group. -/
inductive FlagItem where
  | minus
  | ignoreCase
  | multiLine
  | dotAll
  deriving DecidableEq

/-- What the next character belongs to. -/
inductive Mode where
  | items
  | escape (place : Place)
  | hexStart (width : Nat) (place : Place)
  | hexFixed (left : Nat) (value : Nat) (place : Place)
  | hexBraced (digits : Nat) (value : Nat) (place : Place)
  | groupStart
  | groupQuestion
  | groupNamed
  | groupAngle
  | groupName (name : List Char)
  | groupFlags (given : List FlagItem)
  | count (c : Count)
  | bracket (b : OpenClass)

/-- The state of the reader. Items and branches stand last first; `names` holds
a name for each group so far, the latest first. `lazyable` is set right after a
repetition. -/
structure State where
  mode : Mode := .items
  groups : List OpenGroup := []
  branches : List Item := []
  items : List Item := []
  flags : Flags := {}
  names : List (Option (List Char)) := [none]
  lazyable : Bool := false

namespace State

/-- Append an item. -/
def push (st : State) (x : Item) : State :=
  { st with mode := .items, items := x :: st.items, lazyable := false }

/-- Append a set of characters. -/
def pushSet (st : State) (s : CharSet) : State :=
  st.push { body := .ofSet s }

/-- Append a literal character. -/
def pushChar (st : State) (c : Char) : State :=
  st.pushSet (.char c st.flags.ignoreCase)

/-- Append an anchor. -/
def pushAnchor (st : State) (a : Anchor) : State :=
  st.push { body := .look a }

/-- Repeat the last item. -/
def quantify (st : State) (lo : Nat) (hi : Option Nat) : Except Fault State :=
  match st.items with
  | x :: xs =>
    if x.repeatable then
      .ok { st with
        mode := .items
        items :=
          { body := x.form, rounds := some { lo, hi }, depth := x.depth + 1 } ::
            xs
        lazyable := true }
    else
      .error .missingOperand
  | [] => .error .missingOperand

/-- Make the repetition just read prefer fewer rounds. -/
def makeLazy (st : State) : State :=
  match st.items with
  | x :: xs =>
    let rounds := x.rounds.map fun r => { r with greedy := false }
    { st with items := { x with rounds } :: xs, lazyable := false }
  | [] => { st with lazyable := false }

/-- Begin a group. -/
def openGroup (st : State) (capture : Option Nat) (inner : Flags) : State :=
  { st with
    mode := .items
    groups :=
      { capture, items := st.items, branches := st.branches, flags := st.flags }
      :: st.groups
    items := []
    branches := []
    flags := inner
    lazyable := false }

/-- Begin a group that captures, named or not. -/
def openCapture (st : State) (name : Option (List Char)) : State :=
  { st.openGroup (some st.names.length) st.flags with
    names := name :: st.names }

/-- All that was read since the innermost open group began. -/
def content (st : State) : Item :=
  alternative (sequence st.items :: st.branches)

/-- End the innermost group. The switches in force before it come back. -/
def closeGroup (st : State) : Except Fault State :=
  match st.groups with
  | [] => .error .unopenedGroup
  | g :: gs =>
    let inner := st.content
    let body := match g.capture with
      | some i => .group i inner.form
      | none => inner.form
    .ok { st with
      mode := .items
      groups := gs
      items := { body, depth := inner.depth + 1 } :: g.items
      branches := g.branches
      flags := g.flags
      lazyable := false }

/-- End a branch. -/
def nextBranch (st : State) : State :=
  { st with
    branches := sequence st.items :: st.branches
    items := []
    lazyable := false }

/-- Enter a mode. -/
def enter (st : State) (m : Mode) : State :=
  { st with mode := m, lazyable := false }

end State

end Reader

end Codemod.Pattern
