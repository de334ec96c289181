import Codemod.CommandLine

/-!
# The program

Loads the files that a run can see into a file tree, lets the library decide,
prints what it says and writes back what it changed.
-/

namespace Codemod

/-- Why the system refuses a file. A directory is refused for what it is. -/
def refusal : IO.Error → IO FileFault
  | .permissionDenied _ code _ =>
    return if code = 1 then .notPermitted else .accessDenied
  | .inappropriateType name code details =>
    throw (.inappropriateType name code details)
  | _ => return .deviceError

/-- The regular file at a path: what it holds, and whether it can be read and
written. -/
def loadFile (path : String) : IO File := do
  let file : File ←
    try
      let bytes ← IO.FS.readBinFile path
      pure { contents := .ofBytes bytes.data.toList }
    catch why =>
      pure { contents := .bytes [], readable := false,
             readFault := ← refusal why }
  try
    IO.FS.withFile path .append fun _ => pure ()
    return file
  catch why =>
    return { file with writable := false, writeFault := ← refusal why }

/-- Load what stands at the given paths. A directory is noted as such, a file
that cannot be read as one that cannot, and only a path that leads nowhere is
left out. -/
def loadFiles (tree : FileTree) (paths : List String) : IO FileTree :=
  paths.foldlM (fun tree (path : String) => do
    try
      let _ ← IO.FS.realPath path
      return tree.put path (.file (← loadFile path))
    catch
      | .inappropriateType .. => return tree.put path .directory
      | _ => return tree) tree

/-- Write the files at the given paths whose text differs between two trees. -/
def saveFiles (old new : FileTree) (paths : List String) : IO Unit :=
  for path in paths do
    let text := new.readText path |>.toOption
    if text != (old.readText path).toOption then
      IO.FS.writeFile path (text.getD "")

/-- The files that a run with the given arguments can see, and the paths of its
targets. -/
def loadFor (args : List String) : IO (FileTree × List String) := do
  let tree := FileTree.empty ["work"]
  match CommandLine.parse args with
  | .error _ => return (tree, [])
  | .ok settings =>
    let tree ← loadFiles tree settings.manifest.toList
    let paths := CommandLine.targets tree settings
    return (← loadFiles tree paths, paths)

end Codemod

/-- Run the program on the files of the system. -/
def main (args : List String) : IO UInt32 := do
  let (tree, paths) ← Codemod.loadFor args
  let outcome := Codemod.CommandLine.run tree args
  for line in outcome.stdout do
    IO.println line
  for line in outcome.stderr do
    IO.eprintln line
  Codemod.saveFiles tree outcome.tree paths
  return UInt32.ofNat outcome.exit
