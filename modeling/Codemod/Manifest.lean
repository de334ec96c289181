import Codemod.Error
import Codemod.FileTree
import Codemod.Manifest.Reader

/-!
# Manifests

A manifest lists the targets of a run in a file of its own.
-/

namespace Codemod

/-- The targets that a manifest lists, in order. -/
structure Manifest where
  files : List String
  deriving Repr, DecidableEq

namespace Manifest

/-- The manifest with a given text. The path says in errors where the text came
from. A document that is no manifest is refused before an empty target is. -/
def parse (content path : String) : Except Error Manifest :=
  match Reader.read content.toList with
  | none => .error (.manifestMalformed path)
  | some files =>
    if files.any String.isEmpty then .error (.emptyTarget path)
      else .ok { files }

/-- The manifest in a file. -/
def load (tree : FileTree) (path : String) : Except Error Manifest :=
  match tree.readText path with
  | .error why => .error (.manifestUnreadable path why)
  | .ok content => parse content path

end Manifest

end Codemod
