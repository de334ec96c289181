import Codemod.Error
import Codemod.Event
import Codemod.Pattern

/-!
# Rules

A rule replaces every match of its pattern in a document by a text made from
what was captured. Rules in a list are applied in order, each to what the one
before it left.
-/

namespace Codemod

/-- The two ways to end a line. -/
inductive LineEnding where
  | lf
  | crlf
  deriving Repr, DecidableEq

/-- The characters of a line ending. -/
def LineEnding.text : LineEnding → String
  | .lf => "\n"
  | .crlf => "\r\n"

/-- A carriage return stands right before a line feed somewhere. -/
def hasCrlf : List Char → Bool
  | '\r' :: '\n' :: _ => true
  | _ :: cs => hasCrlf cs
  | [] => false

/-- The line ending of a document: `\r\n` if it occurs at all. -/
def LineEnding.of (document : List Char) : LineEnding :=
  if hasCrlf document then .crlf else .lf

/-- One match, as the maker of its replacement sees it. -/
structure Hit where
  rule : String
  pattern : Pattern
  document : Array Char
  found : Pattern.Match
  lineEnding : LineEnding

namespace Hit

/-- The text of a named group, if the pattern has it and it took part in the
match. -/
def group? (h : Hit) (name : String) : Option String := do
  let i ← h.pattern.groupIndex? name
  let (start, stop) ← h.found.span? i
  return String.ofList (h.document.extract start stop).toList

/-- The text of a named group, which has to be there. -/
def group (h : Hit) (name : String) : Except Error String :=
  match h.group? name with
  | some text => .ok text
  | none => .error (.missingCapture h.rule name)

end Hit

/-- A rule: a name, a compiled pattern, and what makes the replacement of a
match. -/
structure Rule where
  name : String
  pattern : Pattern
  produce : Hit → Except Error String

/-- What a rule makes of a document: the new text, and how many matches were
replaced. -/
structure Edit where
  text : String
  replacements : Nat
  deriving Repr, DecidableEq

namespace Rule

/-- Make a rule from the text of its pattern. -/
def compile (name source : String) (options : Pattern.Options)
    (produce : Hit → Except Error String) : Except Error Rule :=
  match Pattern.compile source options with
  | .ok pattern => .ok { name, pattern, produce }
  | .error why => .error (.invalidPattern name why)

/-- The document from `last` on with each of the matches replaced. The first
replacement that cannot be made decides. -/
def splice (document : Array Char)
    (produce : Pattern.Match → Except Error String) (last : Nat) :
    List Pattern.Match → Except Error (List Char)
  | [] => .ok (document.extract last document.size).toList
  | m :: ms => do
    let replacement ← produce m
    let rest ← splice document produce m.stop ms
    return (document.extract last m.start).toList ++ replacement.toList ++ rest

/-- Replace every match in the document. -/
def apply (r : Rule) (document : String) : Except Error Edit := do
  let chars := document.toList.toArray
  let found := r.pattern.allMatches chars
  let hit (m : Pattern.Match) : Hit :=
    { rule := r.name, pattern := r.pattern, document := chars, found := m,
      lineEnding := .of document.toList }
  let text ← splice chars (fun m => r.produce (hit m)) 0 found
  return { text := String.ofList text, replacements := found.length }

end Rule

/-- Rules in the order in which they are applied. -/
abbrev Rules := List Rule

/-- Apply rules in order. An event tells of each rule that replaced something;
what was told before a failure stays told. -/
def Rules.run : Rules → String → List Event × Except Error String
  | [], document => ([], .ok document)
  | r :: rs, document =>
    match r.apply document with
    | .error e => ([], .error e)
    | .ok edit =>
      let told :=
        if 0 < edit.replacements then [.ruleApplied r.name edit.replacements]
        else []
      let (events, result) := Rules.run rs edit.text
      (told ++ events, result)

end Codemod
