/-!
# Events

What a run reports beside its result, in the order in which it happens.
-/

namespace Codemod

/-- A report: a rule replaced something, a target was passed over, a file went
through the rules and differs or not. -/
inductive Event where
  | ruleApplied (rule : String) (replacements : Nat)
  | missingSkipped (path : String)
  | migrated (path : String) (changed : Bool)
  deriving Repr, DecidableEq

end Codemod
