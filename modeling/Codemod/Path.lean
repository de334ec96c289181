/-!
# Paths

Paths are kept as they were written. Parts are separated by slashes, and a path
that begins with a slash is absolute.
-/

namespace Codemod.Path

/-- The path begins at the root of the file system. -/
def isAbsolute (path : String) : Bool :=
  path.toList.head? == some '/'

/-- The path `target` as seen from the directory `root`. An absolute target
stays as it is, and a slash is put between the two unless there is one or
nothing comes before it. -/
def join (root target : String) : String :=
  if isAbsolute target || root.isEmpty then target
  else if root.toList.getLast? == some '/' then root ++ target
  else root ++ "/" ++ target

/-- The texts between the slashes. -/
def split : List Char → List (List Char)
  | [] => [[]]
  | c :: cs =>
    match split cs with
    | p :: ps => if c = '/' then [] :: p :: ps else (c :: p) :: ps
    | [] => [[c]]

/-- The parts of a path. Two slashes in a row, and one at an end, leave an
empty part. -/
def parts (path : String) : List String :=
  (split path.toList).map String.ofList

end Codemod.Path
