/-!
# Text without control sequences

What is said about the arguments is written as plain text: control characters
other than white space are taken out of the arguments that are quoted, and with
them the control sequences that a terminal would act upon. A sequence is
followed from its escape character on, as a terminal does.
-/

namespace Codemod.CommandLine.PlainText

/-- Where a control sequence stands: outside of one, after the escape
character, among the characters that may follow it, in a sequence with
parameters, in the three parts of the head of a device string, in a string that
ends with the byte 0x9c, in a command that ends with the bell. -/
inductive Mode where
  | outside
  | escape
  | escapeTail
  | control
  | deviceStart
  | deviceParameters
  | deviceTail
  | string
  | command
  deriving Repr, DecidableEq

/-- The state between two characters. `writing` is set as long as characters
are taken over; they are then judged as outside of a sequence, and the mode is
kept for when that ends. -/
structure State where
  mode : Mode := .outside
  writing : Bool := false
  deriving Repr, DecidableEq

/-- White space among the ASCII characters, the vertical tab apart. -/
def isBlank (c : Char) : Bool :=
  c == ' ' || c == '\t' || c == '\n' || c == '\x0c' || c == '\r'

/-- A character that is written outside of a sequence. -/
def isPlain (c : Char) : Bool :=
  isBlank c || (' ' < c && c < '\x7f') || '\x7f' < c

/-- The mode after a character that breaks every sequence. -/
def broken? (c : Char) : Option Mode :=
  if c == '\x1b' then some .escape
  else if c == '\x18' || c == '\x1a' then some .outside
  else none

/-- The character lies between two others. -/
def isIn (c lo hi : Char) : Bool :=
  lo ≤ c && c ≤ hi

/-- The mode after an ASCII character that is part of a sequence. -/
def Mode.after (m : Mode) (c : Char) : Mode :=
  match m with
  | .outside => .outside
  | .escape =>
    match c with
    | '[' => .control
    | ']' => .command
    | 'P' => .deviceStart
    | 'X' | '^' | '_' => .string
    | c =>
        if isIn c ' ' '/' then .escapeTail
        else if isIn c '0' '~' then .outside
        else .escape
  | .escapeTail => if isIn c '0' '~' then .outside else .escapeTail
  | .control => if isIn c '@' '~' then .outside else .control
  | .deviceStart =>
    if isIn c ' ' '/' then .deviceTail
    else if isIn c '0' '?' then .deviceParameters
    else if isIn c '@' '~' then .string
    else .deviceStart
  | .deviceParameters =>
    if isIn c ' ' '/' then .deviceTail
    else if isIn c '<' '~' then .string
    else .deviceParameters
  | .deviceTail => if isIn c '0' '~' then .string else .deviceTail
  | .string => .string
  | .command => if c == '\x07' then .outside else .command

/-- White space is written within a sequence of these modes. -/
def Mode.passesBlanks : Mode → Bool
  | .outside | .escape | .escapeTail | .control => true
  | .deviceStart | .deviceParameters | .deviceTail | .string | .command => false

/-- The byte 0x9c is part of the encoding of a character. -/
def endsString (c : Char) : Bool :=
  (String.utf8EncodeChar c).any (· == 0x9c)

/-- A character while nothing is written: the state after it, and whether it is
written. -/
def skip (m : Mode) (c : Char) : State × Bool :=
  match broken? c with
  | some m => ({ mode := m }, false)
  | none =>
    if '\x7f' < c then
      if m = .outside then ({ writing := true }, true)
      else ({ mode := if m = .string && endsString c then .outside else m },
        false)
    else if (m = .outside && isPlain c) ||
      (m.passesBlanks && isBlank c && c != ' ') then
      ({ mode := m, writing := true }, true)
    else ({ mode := m.after c }, false)

/-- A character: the state after it, and whether it is written. -/
def step (st : State) (c : Char) : State × Bool :=
  if st.writing && isPlain c then
    ({ st with mode := if '\x7f' < c then .outside else st.mode }, true)
  else
    skip st.mode c

/-- The characters that are written, from a state on. -/
def written (st : State) : List Char → List Char
  | [] => []
  | c :: cs =>
    match step st c with
    | (st, true) => c :: written st cs
    | (st, false) => written st cs

end PlainText

/-- The text without control characters and control sequences. -/
def plainText (s : String) : String :=
  String.ofList (PlainText.written {} s.toList)

end Codemod.CommandLine
