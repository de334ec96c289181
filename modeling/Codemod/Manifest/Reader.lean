import Codemod.Text.DigitValue

/-!
# Reading manifests

A manifest is a small document in TOML: blank lines, comments, and at most one
entry, the key `files` with an array of strings. No other key is allowed, so no
other kind of entry is read.

As with patterns, reading is a fold of a step that takes one character. The
mode says which form the next character belongs to: a line, a key, the array, a
string in one of its four notations, a comment.
-/

namespace Codemod.Manifest

namespace Reader

/-- What a string is: a key, or an element of the array. -/
inductive Role where
  | key
  | element

/-- A string with escapes that is still open, its characters last first: within
one line, or over several. -/
inductive Open where
  | line (role : Role) (rev : List Char)
  | block (rev : List Char)

/-- What the next character belongs to. -/
inductive Mode where
  /-- The start of a line, up to its key. -/
  | line
  /-- A key without quotes. -/
  | bareKey (rev : List Char)
  | afterKey
  | beforeValue
  /-- Inside the array, where an element may begin. -/
  | beforeElement
  | afterElement
  | afterValue
  /-- A comment, and the mode after its line end. -/
  | comment (next : Mode)
  /-- After a carriage return, which a line feed has to follow, and the mode
  after that. -/
  | lineFeed (next : Mode)
  /-- After the first quote, or the first two, of an element. -/
  | oneQuote (quote : Char)
  | twoQuotes (quote : Char)
  /-- Within a string of one line. -/
  | quoted (quote : Char) (role : Role) (rev : List Char)
  /-- Right after the three quotes that open a block, where a line end is
  dropped. -/
  | blockStart (quote : Char)
  | block (quote : Char) (rev : List Char)
  /-- In a block after some of its own quotes. -/
  | blockQuotes (quote : Char) (rev : List Char) (count : Nat)
  | escape (string : Open)
  | code (left : Nat) (value : Nat) (string : Open)
  /-- In a block after a backslash and blanks, up to the line end. -/
  | foldedBlank (rev : List Char)
  /-- In a block after a backslash and a line end: blanks and line ends are
  dropped. -/
  | folded (rev : List Char)

/-- The state of the reader. `given` says that the entry has been met; the
files stand last first. -/
structure State where
  mode : Mode := .line
  given : Bool := false
  files : List (List Char) := []

/-- A blank within a line. -/
def isBlank (c : Char) : Bool :=
  c == ' ' || c == '\t'

/-- A character that may stand in a comment or a string as it is: no control
character but the tab. -/
def isPlain (c : Char) : Bool :=
  c == '\t' || (0x20 ≤ c.toNat && c.toNat != 0x7f)

/-- A character of a key without quotes. -/
def isBare (c : Char) : Bool :=
  c.isAlphanum || c == '_' || c == '-'

/-- The only key. -/
def filesKey : List Char := "files".toList

namespace State

/-- Enter a mode. -/
def enter (st : State) (m : Mode) : Option State :=
  some { st with mode := m }

/-- End a key, which stands last character first. -/
def endKey (st : State) (rev : List Char) (next : Mode) : Option State :=
  if rev.reverse = filesKey ∧ st.given = false then
    some { st with mode := next, given := true }
  else
    none

/-- End an element of the array. -/
def endElement (st : State) (rev : List Char) : State :=
  { st with mode := .afterElement, files := rev.reverse :: st.files }

/-- End a string of one line. -/
def endQuoted (st : State) (role : Role) (rev : List Char) : Option State :=
  match role with
  | .key => st.endKey rev .afterKey
  | .element => some (st.endElement rev)

/-- Go on with a string after one of its escapes. -/
def resume (st : State) (string : Open) (c : Char) : Option State :=
  match string with
  | .line role rev => st.enter (.quoted '"' role (c :: rev))
  | .block rev => st.enter (.block '"' (c :: rev))

end State

/-- A character at the start of a line. -/
def stepLine (st : State) (c : Char) : Option State :=
  if isBlank c || c == '\n' then st.enter .line
  else if c == '\r' then st.enter (.lineFeed .line)
  else if c == '#' then st.enter (.comment .line)
  else if c == '"' || c == '\'' then st.enter (.quoted c .key [])
  else if isBare c then st.enter (.bareKey [c])
  else none

/-- A character between a key and its value. -/
def stepAfterKey (st : State) (c : Char) : Option State :=
  if isBlank c then st.enter .afterKey
  else if c == '=' then st.enter .beforeValue
  else none

/-- A character where the line may end. -/
def stepAfterValue (st : State) (c : Char) : Option State :=
  if isBlank c then st.enter .afterValue
  else if c == '\n' then st.enter .line
  else if c == '\r' then st.enter (.lineFeed .line)
  else if c == '#' then st.enter (.comment .line)
  else none

/-- A character of the array between elements; `m` is the mode there. -/
def stepArrayBlank (st : State) (m : Mode) (c : Char) : Option State :=
  if isBlank c || c == '\n' then st.enter m
  else if c == '\r' then st.enter (.lineFeed m)
  else if c == '#' then st.enter (.comment m)
  else none

/-- A character of the array where an element may begin. -/
def stepBeforeElement (st : State) (c : Char) : Option State :=
  if c == ']' then st.enter .afterValue
  else if c == '"' || c == '\'' then st.enter (.oneQuote c)
  else stepArrayBlank st .beforeElement c

/-- A character of the array after an element. -/
def stepAfterElement (st : State) (c : Char) : Option State :=
  if c == ']' then st.enter .afterValue
  else if c == ',' then st.enter .beforeElement
  else stepArrayBlank st .afterElement c

/-- A character of a string of one line. -/
def stepQuoted (st : State) (quote : Char)
    (role : Role) (rev : List Char) (c : Char) :
    Option State :=
  if c == quote then st.endQuoted role rev
  else if c == '\\' && quote == '"' then st.enter (.escape (.line role rev))
  else if isPlain c then st.enter (.quoted quote role (c :: rev))
  else none

/-- A character of a block. -/
def stepBlock (st : State) (quote : Char) (rev : List Char) (c : Char) :
    Option State :=
  if c == quote then st.enter (.blockQuotes quote rev 1)
  else if c == '\\' && quote == '"' then st.enter (.escape (.block rev))
  else if c == '\r' then
    st.enter (.lineFeed (.block quote ('\n' :: '\r' :: rev)))
  else if isPlain c || c == '\n' then st.enter (.block quote (c :: rev))
  else none

/-- A character after some quotes of a block. Three of them end it; two more
may stand before those three and belong to the text. -/
def stepBlockQuotes (st : State) (quote : Char)
    (rev : List Char) (count : Nat) (c : Char) :
    Option State :=
  if c == quote then
    if count < 5 then st.enter (.blockQuotes quote rev (count + 1)) else none
  else if count < 3 then
    stepBlock st quote (List.replicate count quote ++ rev) c
  else
    stepAfterElement (st.endElement (List.replicate (count - 3) quote ++ rev)) c

/-- The escapes of one character. -/
def escape? (c : Char) : Option Char :=
  match c with
  | 'b' => some '\x08'
  | 't' => some '\t'
  | 'n' => some '\n'
  | 'f' => some '\x0c'
  | 'r' => some '\r'
  | 'e' => some '\x1b'
  | '"' => some '"'
  | '\\' => some '\\'
  | _ => none

/-- The number of digits of a code point, by the letter before it. -/
def codeWidth? (c : Char) : Option Nat :=
  match c with
  | 'x' => some 2
  | 'u' => some 4
  | 'U' => some 8
  | _ => none

/-- A character after a backslash and blanks in a block: the line has to end. -/
def stepFoldedBlank (st : State) (rev : List Char) (c : Char) : Option State :=
  if isBlank c then st.enter (.foldedBlank rev)
  else if c == '\n' then st.enter (.folded rev)
  else if c == '\r' then st.enter (.lineFeed (.folded rev))
  else none

/-- The character after a backslash. -/
def stepEscape (st : State) (string : Open) (c : Char) : Option State :=
  match escape? c, codeWidth? c, string with
  | some d, _, _ => st.resume string d
  | none, some width, _ => st.enter (.code width 0 string)
  | none, none, .block rev => stepFoldedBlank st rev c
  | none, none, .line _ _ => none

/-- A digit of a code point. -/
def stepCode (st : State) (left value : Nat) (string : Open) (c : Char) :
    Option State := do
  let value := 16 * value + (← Text.hexValue? c)
  if 1 < left then st.enter (.code (left - 1) value string)
  else if value.isValidChar then st.resume string (Char.ofNat value)
  else none

/-- A character after a folded line end. -/
def stepFolded (st : State) (rev : List Char) (c : Char) : Option State :=
  if isBlank c || c == '\n' then st.enter (.folded rev)
  else if c == '\r' then st.enter (.lineFeed (.folded rev))
  else stepBlock st '"' rev c

/-- Read one character. There is no result if the document cannot be a
manifest. -/
def step (st : State) (c : Char) : Option State :=
  match st.mode with
  | .line => stepLine st c
  | .bareKey rev =>
    if isBare c then st.enter (.bareKey (c :: rev))
    else do stepAfterKey (← st.endKey rev .afterKey) c
  | .afterKey => stepAfterKey st c
  | .beforeValue =>
    if isBlank c then st.enter .beforeValue
    else if c == '[' then st.enter .beforeElement
    else none
  | .beforeElement => stepBeforeElement st c
  | .afterElement => stepAfterElement st c
  | .afterValue => stepAfterValue st c
  | .comment next =>
    if c == '\n' then st.enter next
    else if c == '\r' then st.enter (.lineFeed next)
    else if isPlain c then st.enter (.comment next)
    else none
  | .lineFeed next => if c == '\n' then st.enter next else none
  | .oneQuote quote =>
    if c == quote then st.enter (.twoQuotes quote)
      else stepQuoted st quote .element [] c
  | .twoQuotes quote =>
    if c == quote then st.enter (.blockStart quote)
      else stepAfterElement (st.endElement []) c
  | .quoted quote role rev => stepQuoted st quote role rev c
  | .blockStart quote =>
    if c == '\n' then st.enter (.block quote [])
    else if c == '\r' then st.enter (.lineFeed (.block quote []))
    else stepBlock st quote [] c
  | .block quote rev => stepBlock st quote rev c
  | .blockQuotes quote rev count => stepBlockQuotes st quote rev count c
  | .escape string => stepEscape st string c
  | .code left value string => stepCode st left value string c
  | .foldedBlank rev => stepFoldedBlank st rev c
  | .folded rev => stepFolded st rev c

/-- The files of the document so far, if it may end here. -/
def finish (st : State) : Option (List String) :=
  match st.mode with
  | .line | .afterValue | .comment .line =>
      some (st.files.reverse.map String.ofList)
  | _ => none

/-- The mark that may stand before a document. -/
def byteOrderMark : Char := '\ufeff'

/-- The files that a manifest lists. There is no result if the text is no
manifest. -/
def read (content : List Char) : Option (List String) := do
  let body :=
    if content.head? == some byteOrderMark then content.drop 1 else content
  finish (← body.foldlM step {})

end Reader

end Codemod.Manifest
