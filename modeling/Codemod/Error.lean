import Codemod.FileFault
import Codemod.Pattern.Fault

/-!
# Errors

Everything that can go wrong in the library, by cause.
-/

namespace Codemod

/-- An error. -/
inductive Error where
  | invalidPattern (rule : String) (why : Pattern.Fault)
  | missingCapture (rule group : String)
  | readFailed (path : String) (why : FileFault)
  | writeFailed (path : String) (why : FileFault)
  | manifestUnreadable (path : String) (why : FileFault)
  | manifestMalformed (path : String)
  | emptyTarget (path : String)
  deriving Repr, DecidableEq

/-- The words for an error, without its deeper reason. -/
def Error.message : Error → String
  | .invalidPattern rule _ => s!"Invalid pattern for rule {rule}"
  | .missingCapture rule group =>
    s!"Rule {rule} referenced capture group `{group}`, which did not participate in the match"
  | .readFailed path _ => s!"Failed to read file: {path}"
  | .writeFailed path _ => s!"Failed to write file: {path}"
  | .manifestUnreadable path _ => s!"Failed to read manifest: {path}"
  | .manifestMalformed path => s!"Failed to parse manifest: {path}"
  | .emptyTarget path => s!"Manifest {path} lists an empty target path"

end Codemod
