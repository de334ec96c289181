/-!
# Faults of a pattern

The reasons for which a text is refused as a pattern.
-/

namespace Codemod.Pattern

/-- Why a text is no pattern. -/
inductive Fault where
  | unclosedGroup
  | unopenedGroup
  | missingOperand
  | badCount
  | badEscape
  | badClass
  | badGroupName
  | duplicateGroupName
  | badGroupHead
  | unfinished
  | tooDeep
  | tooLarge
  deriving Repr, DecidableEq

end Codemod.Pattern
