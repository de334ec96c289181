import Codemod.FileTree
import Codemod.Rule

/-!
# Batches

A batch takes files through a list of rules, one file after the other. It
writes the results back, or only says which files would change. What is no
regular file is passed over, and the first failure ends the batch; what was
written before it stays written.
-/

namespace Codemod.Batch

/-- Whether results are written back. -/
inductive Mode where
  | write
  | check
  deriving Repr, DecidableEq

/-- What a batch has done. -/
structure Summary where
  /-- How many files went through the rules. -/
  processed : Nat := 0
  /-- The files whose text differs afterwards, in order. -/
  changed : List String := []
  /-- How many targets were no regular files. -/
  skipped : Nat := 0
  deriving Repr, DecidableEq

/-- How far a batch has come: the tree, the lines said, the events, and the
counts. -/
structure Progress where
  tree : FileTree
  lines : List String := []
  events : List Event := []
  summary : Summary := {}

namespace Progress

/-- Say lines. -/
def say (p : Progress) (lines : List String) : Progress :=
  { p with lines := p.lines ++ lines }

/-- Report events. -/
def report (p : Progress) (events : List Event) : Progress :=
  { p with events := p.events ++ events }

/-- Count a target that is no regular file. -/
def skip (p : Progress) (path : String) : Progress :=
  { p.report [.missingSkipped path] with
    summary := { p.summary with skipped := p.summary.skipped + 1 } }

/-- Count a file that went through the rules. -/
def count (p : Progress) (path : String) (changed : Bool) : Progress :=
  { p with summary := { p.summary with
    processed := p.summary.processed + 1
    changed :=
      if changed then p.summary.changed ++ [path] else p.summary.changed } }

end Progress

/-- The line said before a file is read. -/
def openingLine (mode : Mode) (path : String) : List String :=
  match mode with
  | .write => [s!"Fixing {path}..."]
  | .check => []

/-- The line said after a file is done. -/
def closingLine (mode : Mode) (path : String) (changed : Bool) : List String :=
  match mode with
  | .write => [s!"Fixed {path}"]
  | .check => if changed then [s!"Would fix {path}"] else []

/-- The line said at the end of a batch that did not fail. -/
def lastLine (mode : Mode) (summary : Summary) : String :=
  match mode with
  | .write => "All files processed!"
  | .check => toString summary.changed.length ++ " file(s) would be fixed"

/-- Write a result back, if the mode asks for it. -/
def store (mode : Mode) (tree : FileTree) (path text : String) :
    Except Error FileTree :=
  match mode with
  | .check => .ok tree
  | .write => (tree.writeText path text).mapError (.writeFailed path)

/-- Take the file at a path through the rules. -/
def process (rules : Rules) (mode : Mode) (p : Progress) (path : String) :
    Progress × Option Error :=
  match p.tree.readText path with
  | .error why => (p, some (.readFailed path why))
  | .ok text =>
    let (events, result) := rules.run text
    let p := p.report events
    match result with
    | .error e => (p, some e)
    | .ok migrated =>
      let changed := migrated != text
      let p := p.report [.migrated path changed]
      match store mode p.tree path migrated with
      | .error e => (p, some e)
      | .ok tree =>
        ((({ p with tree } : Progress).count path changed).say
          (closingLine mode path changed),
          none)

/-- Visit one target. -/
def visit (rules : Rules) (mode : Mode) (p : Progress) (path : String) :
    Progress × Option Error :=
  if p.tree.isFile path then
    process rules mode (p.say (openingLine mode path)) path
  else
    (p.skip path, none)

/-- Visit targets in order, up to the first failure. -/
def visitAll (rules : Rules) (mode : Mode) :
    Progress → List String → Progress × Option Error
  | p, [] => (p, none)
  | p, path :: paths =>
    match visit rules mode p path with
    | (p, some e) => (p, some e)
    | (p, none) => visitAll rules mode p paths

/-- What a batch leaves behind. -/
structure Report where
  tree : FileTree
  lines : List String
  events : List Event
  result : Except Error Summary

/-- Run a batch. -/
def run (rules : Rules) (mode : Mode) (tree : FileTree) (paths : List String) :
    Report :=
  match visitAll rules mode { tree } paths with
  | (p, some e) =>
    { tree := p.tree, lines := p.lines, events := p.events,
      result := .error e }
  | (p, none) =>
    { tree := p.tree, lines := p.lines ++ [lastLine mode p.summary],
      events := p.events, result := .ok p.summary }

end Codemod.Batch
