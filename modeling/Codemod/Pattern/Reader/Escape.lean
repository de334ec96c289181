import Codemod.Pattern.Reader.Class
import Codemod.Text.DigitValue

/-!
# Reading escapes

What follows a backslash, in a sequence or in a class: a character that stands
for itself, a control character, a property, an anchor, or a code point in
hexadecimal digits.
-/

namespace Codemod.Pattern.Reader

/-- Put what an escape stands for where it was written. -/
def State.putEscaped (st : State) (place : Place) (e : Escaped) :
    Except Fault State :=
  match place, e with
  | .items, .char c => .ok (st.pushChar c)
  | .items, .property p holds => .ok (st.pushSet (.property p holds))
  | .items, .anchor a => .ok (st.pushAnchor a)
  | .bracket b, .char c => st.classAtom b (.char c)
  | .bracket b, .property p holds => st.classAtom b (.entry (.property p holds))
  | .bracket _, .anchor _ => .error .badClass

/-- Every ASCII character but letters and digits stands for itself after a
backslash, the two angle brackets apart. -/
def isEscapable (c : Char) : Bool :=
  c.toNat < 0x80 && !c.isAlphanum && c != '<' && c != '>'

/-- The escapes of one character. -/
def escape? (c : Char) : Option Escaped :=
  match c with
  | 'a' => some (.char '\x07')
  | 'f' => some (.char '\x0c')
  | 't' => some (.char '\t')
  | 'n' => some (.char '\n')
  | 'r' => some (.char '\r')
  | 'v' => some (.char '\x0b')
  | 'w' => some (.property .word true)
  | 'W' => some (.property .word false)
  | 'd' => some (.property .digit true)
  | 'D' => some (.property .digit false)
  | 's' => some (.property .white true)
  | 'S' => some (.property .white false)
  | 'A' => some (.anchor .textStart)
  | 'z' => some (.anchor .textEnd)
  | 'b' => some (.anchor .wordBoundary)
  | 'B' => some (.anchor .noWordBoundary)
  | '<' => some (.anchor .wordStart)
  | '>' => some (.anchor .wordEnd)
  | c => if isEscapable c then some (.char c) else none

/-- The character after a backslash. -/
def stepEscape (st : State) (place : Place) (c : Char) : Except Fault State :=
  match c with
  | 'x' => .ok (st.enter (.hexStart 2 place))
  | 'u' => .ok (st.enter (.hexStart 4 place))
  | 'U' => .ok (st.enter (.hexStart 8 place))
  | c =>
    match escape? c with
    | some e => st.putEscaped place e
    | none => .error .badEscape

/-- The character with a given code point, put where the escape was written. -/
def State.putCode (st : State) (place : Place) (n : Nat) : Except Fault State :=
  if n.isValidChar then st.putEscaped place (.char (Char.ofNat n))
    else .error .badEscape

/-- A character of a code point with a fixed number of digits. -/
def stepHexFixed (st : State) (left value : Nat) (place : Place) (c : Char) :
    Except Fault State :=
  match Text.hexValue? c with
  | none => .error .badEscape
  | some d =>
    let value := 16 * value + d
    if left ≤ 1 then st.putCode place value
      else .ok (st.enter (.hexFixed (left - 1) value place))

/-- A character of a code point in braces. -/
def stepHexBraced (st : State) (digits value : Nat) (place : Place) (c : Char) :
    Except Fault State :=
  if c == '\x7d' then
    if digits == 0 then .error .badEscape else st.putCode place value
  else
    match Text.hexValue? c with
    | none => .error .badEscape
    | some d => .ok (st.enter (.hexBraced (digits + 1) (16 * value + d) place))

end Codemod.Pattern.Reader
