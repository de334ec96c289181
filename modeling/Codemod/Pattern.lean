import Codemod.Pattern.Reader
import Codemod.Pattern.Search

/-!
# Patterns

A pattern is compiled from its text and the match options. It finds matches in
a text from left to right, and they do not overlap. A match knows the spans of
the whole and of the groups that took part.
-/

namespace Codemod

namespace Pattern

/-- The switches a pattern is compiled with. -/
structure Options where
  /-- `^` and `$` hold at the ends of every line, not only at the ends of the
  text. -/
  multiLine : Bool := false
  /-- `.` matches the line feed too. -/
  dotAll : Bool := false
  deriving Repr, DecidableEq

namespace Options

/-- No switch, for patterns of a single line. -/
def plain : Options := {}

/-- Both switches, for statements that are spread over many lines. -/
def structural : Options := { multiLine := true, dotAll := true }

/-- The names of the switches that are on. -/
def shown (o : Options) : List String :=
  (if o.multiLine then ["multi-line"] else []) ++
    (if o.dotAll then ["dot-matches-newline"] else [])

/-- The switches in force where the pattern begins. -/
def flags (o : Options) : Flags :=
  { multiLine := o.multiLine, dotAll := o.dotAll }

end Options

end Pattern

/-- A compiled pattern: its text, its options, a name or none for each group
from group 0 on, and the engine that searches for it. -/
structure Pattern where
  source : String
  options : Pattern.Options
  groupNames : List (Option String)
  engine : Pattern.Engine

namespace Pattern

/-- The names of the groups that take part in a pattern: up to the last of
them, and none for a group that has vanished. -/
def keptNames (f : Form) (names : List (Option (List Char))) :
    List (Option String) :=
  let kept := 0 :: f.groups
  let last := kept.foldl max 0
  (names.take (last + 1)).zipIdx.map fun (name, i) =>
    if kept.contains i then name.map String.ofList else none

/-- Compile a pattern. -/
def compile (source : String) (options : Options) : Except Fault Pattern := do
  let (form, names) ← Reader.read options.flags source.toList
  let engine := .ofRegex (.group 0 form.regex)
  return { source, options, groupNames := keptNames form names, engine }

/-- A match: the span of the whole and the marks of the groups. -/
structure Match where
  start : Nat
  stop : Nat
  marks : Marks

/-- The match that a finished thread has marked. -/
def Match.ofMarks? (marks : Marks) : Option Match := do
  return { start := ← marks.lookup 0, stop := ← marks.lookup 1, marks }

/-- The span of a group, if it took part in the match. -/
def Match.span? (m : Match) (group : Nat) : Option (Nat × Nat) := do
  return (← m.marks.lookup (2 * group), ← m.marks.lookup (2 * group + 1))

/-- The match is empty. -/
def Match.isEmpty (m : Match) : Bool :=
  m.start == m.stop

/-- The leftmost match from a place on, the preferred one of those that start
there. -/
def find? (p : Pattern) (text : Array Char) (start : Nat) : Option Match :=
  (p.engine.find text start).bind Match.ofMarks?

/-- The next match after one that ended at `last`. An empty match right there
does not count, and the search goes on one character further. -/
def findNext? (p : Pattern) (text : Array Char) (last : Nat) : Option Match :=
  match p.find? text last with
  | some m =>
      if m.isEmpty && m.stop == last then p.find? text (last + 1) else some m
  | none => none

/-- All matches after one that ended at `last`. -/
def matchesAfter (p : Pattern) (text : Array Char) (last : Nat) : List Match :=
  match p.findNext? text last with
  | some m =>
    if last < m.stop ∧ m.stop ≤ text.size then
      m :: p.matchesAfter text m.stop
    else
      []
  | none => []
termination_by text.size - last

/-- All matches, from left to right. -/
def allMatches (p : Pattern) (text : Array Char) : List Match :=
  match p.find? text 0 with
  | some m => m :: p.matchesAfter text m.stop
  | none => []

/-- The number of a named group. -/
def groupIndex? (p : Pattern) (name : String) : Option Nat :=
  p.groupNames.findIdx? (· == some name)

end Pattern

end Codemod
