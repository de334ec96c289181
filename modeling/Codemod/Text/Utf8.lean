/-!
# Places in a text as byte offsets

The library counts places in characters. A caller who counts in bytes of the
UTF-8 form gets the offset of a place from the table built here.
-/

namespace Codemod.Text

/-- The byte offset of each place of a text: entry `i` is the number of bytes
before character `i`, and the last entry is the size of the whole. -/
def byteOffsets (cs : List Char) : Array Nat :=
  (cs.foldl (fun (acc : Array Nat × Nat) c =>
    let next := acc.2 + c.utf8Size
    (acc.1.push next, next)) (#[0], 0)).1

end Codemod.Text
