import Codemod.CommandLine.PlainText

/-!
# Arguments of the command line

Arguments are read from left to right. An option that wants a value keeps
waiting for it until the next argument, and what has been gathered is settled
when the next known argument comes, or at the end; an argument that is not
known at all is refused before that.
-/

namespace Codemod.CommandLine

/-- An argument of the program. -/
inductive Argument where
  | manifest
  | root
  | check
  | listRules
  | paths
  deriving Repr, DecidableEq

/-- The way an argument is written in messages. -/
def Argument.shown : Argument → String
  | .manifest => "--manifest <FILE>"
  | .root => "--root <DIR>"
  | .check => "--check"
  | .listRules => "--list-rules"
  | .paths => "[PATHS]..."

/-- What is wrong with the arguments. -/
inductive UsageFault where
  | unknown (arg : String)
  | unexpectedValue (value arg : String)
  | repeated (a : Argument)
  | valueMissing (a : Argument)
  | conflict (a b : Argument)
  deriving Repr, DecidableEq

/-- The words for a fault. -/
def UsageFault.message : UsageFault → String
  | .unknown arg => "unexpected argument '" ++ plainText arg ++ "' found"
  | .unexpectedValue value arg =>
    "unexpected value '" ++ plainText value ++ "' for '" ++ arg
      ++ "' found; no more were expected"
  | .repeated a =>
      "the argument '" ++ a.shown ++ "' cannot be used multiple times"
  | .valueMissing a =>
      "a value is required for '" ++ a.shown ++ "' but none was supplied"
  | .conflict a b =>
      "the argument '" ++ a.shown ++ "' cannot be used with '" ++ b.shown ++ "'"

/-- Why the program does not start its work: it was asked about itself, or the
arguments are wrong. -/
inductive Stop where
  | help
  | version
  | usage (fault : UsageFault)
  deriving Repr, DecidableEq

/-- What the arguments ask for. -/
structure Settings where
  manifest : Option String := none
  root : Option String := none
  check : Bool := false
  listRules : Bool := false
  paths : List String := []
  deriving Repr, DecidableEq

namespace Arguments

/-- An option that takes a value. -/
inductive Valued where
  | manifest
  | root
  deriving Repr, DecidableEq

/-- The argument that an option is. -/
def Valued.argument : Valued → Argument
  | .manifest => .manifest
  | .root => .root

/-- What has been read and is not settled. -/
inductive Pending where
  | nothing
  | option (o : Valued) (value : Option String)
  | paths (values : List String)

/-- The state between two arguments. `given` holds the arguments that are
settled, in the order of their first use; after `--` all further arguments are
paths. -/
structure State where
  settings : Settings := {}
  given : List Argument := []
  pending : Pending := .nothing
  onlyPaths : Bool := false

namespace State

/-- An argument that may be used once is used. -/
def use (st : State) (a : Argument) : Except Stop State :=
  if st.given.contains a then .error (.usage (.repeated a))
  else .ok { st with given := st.given ++ [a] }

/-- An option is used with a value. -/
def useValue (st : State) (o : Valued) (value : String) :
    Except Stop State := do
  let st ← st.use o.argument
  if value.isEmpty then .error (.usage (.valueMissing o.argument))
  else
    match o with
    | .manifest =>
        .ok { st with settings := { st.settings with manifest := some value } }
    | .root =>
        .ok { st with settings := { st.settings with root := some value } }

/-- Settle what is pending. -/
def settle (st : State) : Except Stop State :=
  let done := { st with pending := .nothing }
  match st.pending with
  | .nothing => .ok done
  | .option o none => .error (.usage (.valueMissing o.argument))
  | .option o (some value) => done.useValue o value
  | .paths values =>
    if values.any String.isEmpty then .error (.usage (.valueMissing .paths))
    else .ok { done with
      settings := { st.settings with paths := st.settings.paths ++ values }
      given :=
        if st.given.contains .paths then st.given else st.given ++ [.paths] }

/-- A path, or any other text that is no option. -/
def positional (st : State) (arg : String) : Except Stop State :=
  match st.pending with
  | .paths values => .ok { st with pending := .paths (values ++ [arg]) }
  | _ => do
    let st ← st.settle
    return { st with pending := .paths [arg] }

/-- An option that takes a value, with the value if it was attached. -/
def valued (st : State) (o : Valued) (attached : Option String) :
    Except Stop State := do
  let st ← st.settle
  match attached with
  | some value => st.useValue o value
  | none => return { st with pending := .option o none }

/-- The switch `--check`. -/
def check (st : State) : Except Stop State := do
  let st ← (← st.settle).use .check
  return { st with settings := { st.settings with check := true } }

/-- The switch `--list-rules`. -/
def listRules (st : State) : Except Stop State := do
  let st ← (← st.settle).use .listRules
  return { st with settings := { st.settings with listRules := true } }

/-- A question about the program itself. -/
def ask (st : State) (stop : Stop) : Except Stop State := do
  let _ ← st.settle
  .error stop

end State

/-- A text cut at its first equals sign. -/
def cutValue (cs : List Char) : String × Option String :=
  let name := cs.takeWhile (· != '=')
  match cs.drop name.length with
  | [] => (String.ofList name, none)
  | _ :: value => (String.ofList name, some (String.ofList value))

/-- A switch, which takes no value. -/
def bare (attached : Option String) (arg : String) (next : Except Stop State) :
    Except Stop State :=
  match attached with
  | some value => .error (.usage (.unexpectedValue value arg))
  | none => next

/-- An argument that begins with two dashes, without them. -/
def long (st : State) (cs : List Char) : Except Stop State :=
  let (name, attached) := cutValue cs
  match name with
  | "manifest" => st.valued .manifest attached
  | "root" => st.valued .root attached
  | "check" => bare attached "--check" st.check
  | "list-rules" => bare attached "--list-rules" st.listRules
  | "help" => bare attached "--help" (st.ask .help)
  | "version" => bare attached "--version" (st.ask .version)
  | name => .error (.usage (.unknown s!"--{name}"))

/-- An argument that begins with one dash, without it. The first letter
decides: an option takes the rest as its value, and an equals sign before the
value is dropped. -/
def short (st : State) (letter : Char) (rest : List Char) : Except Stop State :=
  match letter with
  | 'C' =>
    match rest with
    | [] => st.valued .root none
    | '=' :: value => st.valued .root (some (String.ofList value))
    | value => st.valued .root (some (String.ofList value))
  | 'h' => st.ask .help
  | 'V' => st.ask .version
  | c => .error (.usage (.unknown (String.ofList ['-', c])))

/-- Read one argument. -/
def step (st : State) (arg : String) : Except Stop State :=
  if st.onlyPaths then st.positional arg
  else
    match arg.toList with
    | ['-', '-'] => .ok { st with onlyPaths := true }
    | '-' :: '-' :: cs => long st cs
    | '-' :: letter :: rest => short st letter rest
    | _ =>
      match st.pending with
      | .option o none => .ok { st with pending := .option o (some arg) }
      | _ => st.positional arg

/-- What the arguments ask for, once all are read. A manifest and paths exclude
each other; the one that was given first is named first. -/
def finish (st : State) : Except Stop Settings := do
  let st ← st.settle
  match st.given.filter fun a => a == .manifest || a == .paths with
  | [a, b] => .error (.usage (.conflict a b))
  | _ => return st.settings

end Arguments

/-- Read the arguments of the program. -/
def parse (args : List String) : Except Stop Settings := do
  Arguments.finish (← args.foldlM Arguments.step {})

end Codemod.CommandLine
