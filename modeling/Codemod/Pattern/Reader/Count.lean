import Codemod.Pattern.Reader.State
import Codemod.Text.DigitValue
import Codemod.Text.White

/-!
# Reading counts

The forms of a counted repetition: exactly so often, at least so often, between
two bounds.
-/

namespace Codemod.Pattern.Reader

/-- The greatest count of a repetition. -/
def maxCount : Nat := 4294967295

/-- Repeat the last item by a count that has been read. -/
def State.counted (st : State) (lo : Nat) (hi : Option Nat) :
    Except Fault State :=
  if maxCount < lo || hi.any (maxCount < ·) || hi.any (· < lo) then
    .error .badCount
  else
    st.quantify lo hi

/-- A character of a count. Blanks may stand around the numbers. -/
def stepCount (st : State) (k : Count) (c : Char) : Except Fault State :=
  let blank := Text.isWhite c
  let go (k : Count) : Except Fault State := .ok (st.enter (.count k))
  match k with
  | .low n ended =>
    match Text.decimalValue? c, n with
    | some d, some m =>
        if ended then .error .badCount else go (.low (some (10 * m + d)) false)
    | some d, none => go (.low (some d) false)
    | none, some m =>
      if blank then go (.low (some m) true)
      else if c == ',' then go (.comma m)
      else if c == '\x7d' then st.counted m (some m)
      else .error .badCount
    | none, none => if blank then go (.low none false) else .error .badCount
  | .comma lo =>
    match Text.decimalValue? c with
    | some d => go (.high lo (some d) false)
    | none =>
      if blank then go (.high lo none false)
      else if c == '\x7d' then st.counted lo none
      else .error .badCount
  | .high lo n ended =>
    match Text.decimalValue? c, n with
    | some d, some m =>
      if ended then .error .badCount
        else go (.high lo (some (10 * m + d)) false)
    | some d, none => go (.high lo (some d) false)
    | none, some m =>
      if blank then go (.high lo (some m) true)
      else if c == '\x7d' then st.counted lo (some m)
      else .error .badCount
    | none, none => if blank then go (.high lo none false) else .error .badCount

end Codemod.Pattern.Reader
