/-!
# Why a file cannot be used

The reasons that reading or writing a file can fail, with the words of the
operating system.
-/

namespace Codemod

/-- A reason for failure. -/
inductive FileFault where
  | missing
  | notDirectory
  | isDirectory
  | nameTooLong
  | accessDenied
  | notPermitted
  | deviceError
  | nulInName
  | notText
  deriving Repr, DecidableEq

/-- The words for a reason. -/
def FileFault.message : FileFault → String
  | .missing => "No such file or directory (os error 2)"
  | .notDirectory => "Not a directory (os error 20)"
  | .isDirectory => "Is a directory (os error 21)"
  | .nameTooLong => "File name too long (os error 36)"
  | .accessDenied => "Permission denied (os error 13)"
  | .notPermitted => "Operation not permitted (os error 1)"
  | .deviceError => "Input/output error (os error 5)"
  | .nulInName => "file name contained an unexpected NUL byte"
  | .notText => "stream did not contain valid UTF-8"

end Codemod
