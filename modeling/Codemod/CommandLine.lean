import Codemod.Batch
import Codemod.CommandLine.Arguments
import Codemod.Manifest
import Codemod.Migration
import Codemod.Targets

/-!
# The command line

A run of the program as a function: from a file tree and arguments to the tree
afterwards, the exit status, and the lines on the two outputs.
-/

namespace Codemod.CommandLine

/-- What a run of the program leaves behind. -/
structure Outcome where
  tree : FileTree
  exit : Nat := 0
  stdout : List String := []
  stderr : List String := []

/-- What the program says of itself. -/
def versionLine : String := "fixture-migrate 0.1.0"

/-- How the program is used. -/
def helpLines : List String := [
  "Migrate e2e tests from inline Prisma fixtures to test-utils helpers",
  "",
  "Usage: fixture-migrate [OPTIONS] [PATHS]...",
  "",
  "Arguments:",
  "  [PATHS]...  Files to migrate instead of the built-in list",
  "",
  "Options:",
  "      --manifest <FILE>  Read the target list from a TOML manifest (`files = [...]`)",
  "  -C, --root <DIR>       Resolve relative targets against this directory",
  "      --check            Report files that would change without writing them",
  "      --list-rules       Print the rewrite rules in application order and exit",
  "  -h, --help             Print help",
  "  -V, --version          Print version"
]

/-- The line of a rule in the list of rules, with its number and the switches
it is compiled with. -/
def ruleLine (number : Nat) (r : Rule) : String :=
  let head := toString number ++ ". " ++ r.name
  match r.pattern.options.shown with
  | [] => head
  | names => head ++ " (" ++ ", ".intercalate names ++ ")"

/-- The messages of an error, from the outermost reason to the innermost. -/
def reasons (e : Error) : List String :=
  e.message :: match e with
    | .invalidPattern _ _ => ["regex parse error"]
    | .missingCapture _ _ => []
    | .readFailed _ why => [why.message]
    | .writeFailed _ why => [why.message]
    | .manifestUnreadable _ why => [why.message]
    | .manifestMalformed _ => ["TOML parse error"]
    | .emptyTarget _ => []

/-- The lines of a text. -/
def linesOf (s : String) : List String :=
  let rec go : List Char → List (List Char)
    | [] => [[]]
    | c :: cs =>
      match go cs with
      | l :: ls => if c = '\n' then [] :: l :: ls else (c :: l) :: ls
      | [] => [[c]]
  (go s.toList).map String.ofList

/-- A message with something before its first line and something else before
the others. -/
def indented (first rest message : String) : List String :=
  match linesOf message with
  | [] => []
  | l :: ls => (first ++ l) :: ls.map (rest ++ ·)

/-- The lines that report a failure: what was attempted, and then the reasons,
numbered if there are several. -/
def failureLines (attempt : String) (e : Error) : List String :=
  linesOf s!"error: {attempt}" ++ ["", "Caused by:"] ++
    match reasons e with
    | [only] => indented "    " "    " only
    | several => several.zipIdx.flatMap fun (message, i) =>
        indented ("    " ++ toString i ++ ": ") "       " message

/-- The outcome of a failure that leaves the tree in some state, with what was
said before. -/
def failed (tree : FileTree) (stdout : List String) (attempt : String)
    (e : Error) : Outcome :=
  { tree, exit := 1, stdout, stderr := failureLines attempt e }

/-- The targets that the settings name, before a root is put in front of
them. -/
def namedTargets (tree : FileTree) (s : Settings) :
    Except Error (List String) :=
  match s.manifest with
  | some path => (Manifest.load tree path).map (·.files)
  | none => .ok (if s.paths.isEmpty then Targets.builtIn else s.paths)

/-- The targets as seen from the root, if one is given. -/
def rooted (s : Settings) (targets : List String) : List String :=
  match s.root with
  | some root => Targets.fromRoot root targets
  | none => targets

/-- The files that a run with these settings can touch. -/
def targets (tree : FileTree) (s : Settings) : List String :=
  match namedTargets tree s with
  | .ok named => rooted s named
  | .error _ => []

/-- The mode that the settings ask for. -/
def Settings.mode (s : Settings) : Batch.Mode :=
  if s.check then .check else .write

/-- Run the rules over the targets. In check mode the exit status tells whether
a file would change. -/
def migrate (rules : Rules) (tree : FileTree) (s : Settings)
    (targets : List String) : Outcome :=
  let report := Batch.run rules s.mode tree targets
  match report.result with
  | .error e => failed report.tree report.lines "Migration aborted" e
  | .ok summary =>
    let exit := if s.mode = .check ∧ summary.changed ≠ [] then 1 else 0
    { tree := report.tree, exit, stdout := report.lines }

/-- Do what the settings ask for with rules, if these could be compiled. -/
def executeWith (compiled : Except Error Rules) (tree : FileTree)
    (s : Settings) : Outcome :=
  match compiled with
  | .error e => failed tree [] "Failed to compile rewrite rules" e
  | .ok rules =>
    if s.listRules then
      { tree, stdout := rules.zipIdx.map fun (r, i) => ruleLine (i + 1) r }
    else
      match namedTargets tree s with
      | .error e =>
          failed tree [] ("Failed to load manifest " ++ s.manifest.getD "") e
      | .ok targets => migrate rules tree s (rooted s targets)

/-- Do what the settings ask for with the rules of the migration. -/
def execute (tree : FileTree) (s : Settings) : Outcome :=
  executeWith Migration.rules tree s

/-- Run the program. -/
def run (tree : FileTree) (args : List String) : Outcome :=
  match parse args with
  | .ok settings => execute tree settings
  | .error .help => { tree, stdout := helpLines }
  | .error .version => { tree, stdout := [versionLine] }
  | .error (.usage fault) =>
      { tree, exit := 2, stderr := linesOf ("error: " ++ fault.message) }

end Codemod.CommandLine
