import Codemod.Text.CaseFold
import Codemod.Text.Digit
import Codemod.Text.White
import Codemod.Text.WordChar

/-!
# Sets of characters

What one character of a text has to satisfy: the meaning of a literal, of `.`,
of `\w` and its kin, and of a bracket class. A set is kept as the ranges it
covers, so sets that were written differently and hold the same characters are
equal.
-/

namespace Codemod.Pattern

/-- The named properties `\w`, `\d` and `\s`. -/
inductive Property where
  | word
  | digit
  | white
  deriving Repr, DecidableEq

/-- What has the property. -/
def Property.ranges : Property → Text.Ranges
  | .word => Text.word
  | .digit => Text.digit
  | .white => Text.white

/-- One entry of a class: a closed range, or a property or its complement. -/
inductive ClassItem where
  | range (lo hi : Char)
  | property (p : Property) (holds : Bool)
  deriving Repr, DecidableEq

/-- What the entry covers. -/
def ClassItem.ranges : ClassItem → Text.Ranges
  | .range lo hi => [(lo.toNat, hi.toNat)]
  | .property p true => p.ranges
  | .property p false => p.ranges.complement

/-- A set of characters. -/
structure CharSet where
  ranges : Text.Ranges
  deriving Repr, DecidableEq

namespace CharSet

/-- Membership. -/
def has (s : CharSet) (c : Char) : Bool :=
  s.ranges.has c.toNat

/-- The single character `c`. -/
def single (c : Char) : CharSet :=
  ⟨[(c.toNat, c.toNat)]⟩

/-- The character of a set that holds just one. -/
def single? (s : CharSet) : Option Char :=
  match s.ranges with
  | [(lo, hi)] => if lo = hi then some (Char.ofNat lo) else none
  | _ => none

/-- The union of two sets. -/
def union (s t : CharSet) : CharSet :=
  ⟨s.ranges.union t.ranges⟩

/-- The union of some entries, closed under change of case if `ignoreCase`, and
then complemented if `negated`. Case is ignored before the complement is taken,
so a negated class refuses every form of the letters it names. -/
def ofItems (items : List ClassItem) (negated ignoreCase : Bool) : CharSet :=
  let covered : Text.Ranges := items.foldr (fun i acc => i.ranges.union acc) []
  let closed := if ignoreCase then Text.closeCase covered else covered
  ⟨if negated then closed.complement else closed⟩

/-- The character `c`, in every form if `ignoreCase`. -/
def char (c : Char) (ignoreCase : Bool) : CharSet :=
  if ignoreCase then ⟨Text.closeCase [(c.toNat, c.toNat)]⟩ else single c

/-- A property or its complement. -/
def property (p : Property) (holds : Bool) : CharSet :=
  ⟨(ClassItem.property p holds).ranges⟩

/-- What `.` matches: every character, or every character but the line feed. -/
def dot (lineFeed : Bool) : CharSet :=
  ⟨Text.Ranges.complement (if lineFeed then [] else [('\n'.toNat, '\n'.toNat)])⟩

end CharSet

end Codemod.Pattern
