import Codemod.FileFault
import Codemod.Path

/-!
# File trees

The part of a file system that a run can see: directories and regular files,
each under the list of names that leads to it from the root, and the directory
in which the program works. Looking up a path goes from part to part, as the
operating system does, and fails for the same reasons.
-/

namespace Codemod

/-- What a file holds: a text, or bytes that are not the UTF-8 form of any
text. -/
inductive Contents where
  | text (s : String)
  | bytes (bs : List UInt8)
  deriving Repr, DecidableEq

/-- The contents with the given bytes. -/
def Contents.ofBytes (bs : List UInt8) : Contents :=
  match String.fromUTF8? ⟨bs.toArray⟩ with
  | some s => .text s
  | none => .bytes bs

/-- A regular file. A file that is not readable, or not writable, is there all
the same, and the system has its reason to refuse it. -/
structure File where
  contents : Contents
  readable : Bool := true
  writable : Bool := true
  readFault : FileFault := .accessDenied
  writeFault : FileFault := .notPermitted
  deriving Repr, DecidableEq

namespace File

/-- The text of a file. -/
def read (f : File) : Except FileFault String :=
  if f.readable then
    match f.contents with
    | .text s => .ok s
    | .bytes _ => .error .notText
  else .error f.readFault

/-- A file with another text. A file that cannot be written stays as it was. -/
def write (f : File) (text : String) : Except FileFault File :=
  if f.writable then .ok { f with contents := .text text }
    else .error f.writeFault

end File

/-- What a name can stand for. -/
inductive Entry where
  | file (f : File)
  | directory
  deriving Repr, DecidableEq

/-- Entries by the names that lead to them, and the names that lead to the
working directory. -/
structure FileTree where
  entries : List (List String × Entry) := []
  workDir : List String := []
  deriving Repr, DecidableEq

namespace FileTree

/-- What stands under a list of names. The empty list leads to the root, a
directory. -/
def entry? (t : FileTree) (names : List String) : Option Entry :=
  if names.isEmpty then some .directory else t.entries.lookup names

/-- A name may have 255 bytes. -/
def maxName : Nat := 255

/-- A path may have 4095 bytes. -/
def maxPath : Nat := 4095

/-- One part further along a path. Every part, an empty one too, asks for a
directory to stand in. -/
def descend (t : FileTree) (here : List String) (part : String) :
    Except FileFault (List String) :=
  if t.entry? here ≠ some .directory then .error .notDirectory
  else if part = "" ∨ part = "." then .ok here
  else if part = ".." then .ok here.dropLast
  else if maxName < part.utf8ByteSize then .error .nameTooLong
  else if (t.entry? (here ++ [part])).isSome then .ok (here ++ [part])
  else .error .missing

/-- The names under which the thing at a path stands. -/
def locate (t : FileTree) (path : String) : Except FileFault (List String) :=
  if path.toList.contains '\x00' then .error .nulInName
  else if path.isEmpty then .error .missing
  else if maxPath < path.utf8ByteSize then .error .nameTooLong
  else (Path.parts path).foldlM t.descend
    (if Path.isAbsolute path then [] else t.workDir)

/-- The regular file at a path. -/
def file? (t : FileTree) (path : String) : Option File :=
  match t.locate path with
  | .ok names =>
    match t.entry? names with
    | some (.file f) => some f
    | _ => none
  | .error _ => none

/-- There is a regular file at the path. -/
def isFile (t : FileTree) (path : String) : Bool :=
  (t.file? path).isSome

/-- The text of the file at a path. -/
def readText (t : FileTree) (path : String) : Except FileFault String := do
  match t.entry? (← t.locate path) with
  | some (.file f) => f.read
  | some .directory => .error .isDirectory
  | none => .error .missing

/-- Put an entry in the place of the one under the same names. -/
def replace (t : FileTree) (names : List String) (e : Entry) : FileTree :=
  { t with
    entries := t.entries.map fun (k, old) =>
      if k = names then (k, e) else (k, old) }

/-- Overwrite the file at a path. -/
def writeText (t : FileTree) (path text : String) :
    Except FileFault FileTree := do
  let names ← t.locate path
  match t.entry? names with
  | some (.file f) => return t.replace names (.file (← f.write text))
  | some .directory => .error .isDirectory
  | none => .error .missing

/-! ## Building trees -/

/-- Add an entry unless the names lead to one. -/
def add (t : FileTree) (names : List String) (e : Entry) : FileTree :=
  if (t.entry? names).isSome then t
    else { t with entries := t.entries ++ [(names, e)] }

/-- Drop what stands under the names, with all that is below. -/
def drop (t : FileTree) (names : List String) : FileTree :=
  { t with entries := t.entries.filter fun (k, _) => !names.isPrefixOf k }

/-- Add the directories that lead to a list of names. -/
def addParents (t : FileTree) (names : List String) : FileTree :=
  ((List.range names.length).map names.take).foldl
    (fun t dir => t.add dir .directory) t

/-- The names that a path spells out, without regard to what is there. -/
def spelled (t : FileTree) (path : String) : List String :=
  (Path.parts path).foldl
    (fun here part =>
      if part = "" ∨ part = "." then here
      else if part = ".." then here.dropLast
      else here ++ [part])
    (if Path.isAbsolute path then [] else t.workDir)

/-- Put an entry at a path in the place of whatever is there, and make the
directories that lead to it. -/
def put (t : FileTree) (path : String) (e : Entry) : FileTree :=
  let names := t.spelled path
  ((t.drop names).addParents names).add names e

/-- Take away what is at a path, with all that is below it. -/
def remove (t : FileTree) (path : String) : FileTree :=
  t.drop (t.spelled path)

/-- A tree that holds nothing but a working directory. -/
def empty (workDir : List String) : FileTree :=
  ({ workDir } : FileTree).addParents workDir |>.add workDir .directory

/-- The files below the working directory, and the directories there that hold
nothing, by their paths from it. -/
def listing (t : FileTree) : List (String × Option Contents) :=
  t.entries.filterMap fun (k, e) =>
    if t.workDir.isPrefixOf k && k != t.workDir then
      let path := "/".intercalate (k.drop t.workDir.length)
      match e with
      | .file f => some (path, some f.contents)
      | .directory =>
        if t.entries.any fun (other, _) => k.isPrefixOf other && k !=
          other then none
        else some (path, none)
    else none

end FileTree

end Codemod
