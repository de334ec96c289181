import Codemod.Text.Ranges

/-!
# Ranges of code points in UTF-8

The encodings of a range of code points, as sequences of ranges of bytes: the
range is cut into pieces such that in each piece every byte runs through a
range of its own, whatever the other bytes are. The pieces come in ascending
order and are as few as that allows.
-/

namespace Codemod.Text

/-- A closed range of bytes. -/
abbrev ByteRange := Nat × Nat

/-- The range from `lo` to `hi` in digits to the base 64, with `k` digits after
the first. The piece of a first digit that is not taken up whole stands by
itself, at either end. -/
def digitRanges64 : Nat → Nat → Nat → List (List (Nat × Nat))
  | 0, lo, hi => [[(lo, hi)]]
  | k + 1, lo, hi =>
    let unit := 64 ^ (k + 1)
    let a := lo / unit
    let b := hi / unit
    let within (d lo hi : Nat) := (digitRanges64 k lo hi).map ((d, d) :: ·)
    if a = b then within a (lo % unit) (hi % unit)
    else
      let first := if lo % unit = 0 then [] else within a (lo % unit) (unit - 1)
      let last := if hi % unit = unit - 1 then [] else within b 0 (hi % unit)
      let a := if first.isEmpty then a else a + 1
      let b := if last.isEmpty then b + 1 else b
      let middle :=
        if a < b then [(a, b - 1) :: List.replicate (k + 1) (0, 63)] else []
      first ++ middle ++ last

/-- The code points whose encodings have `tail` bytes after a first byte that
is counted from `lead`. -/
structure Utf8Block where
  first : Nat
  last : Nat
  tail : Nat
  lead : Nat

/-- The blocks in ascending order. Between the third and the fourth are the
code points that are no characters. -/
def utf8Blocks : List Utf8Block :=
  [ ⟨0x0, 0x7f, 0, 0x0⟩, ⟨0x80, 0x7ff, 1, 0xc0⟩, ⟨0x800, 0xd7ff, 2, 0xe0⟩,
  ⟨0xe000, 0xffff, 2, 0xe0⟩, ⟨0x10000, 0x10ffff, 3, 0xf0⟩
]

/-- The bytes of some digits to the base 64. -/
def Utf8Block.bytes (b : Utf8Block) : List (Nat × Nat) → List ByteRange
  | [] => []
  | (lo, hi) :: ds =>
      (b.lead + lo, b.lead + hi) :: ds.map fun (lo, hi) =>
        (0x80 + lo, 0x80 + hi)

/-- The encodings of the code points from `lo` to `hi`. -/
def utf8Ranges (lo hi : Nat) : List (List ByteRange) :=
  utf8Blocks.flatMap fun b =>
    let lo := max lo b.first
    let hi := min hi b.last
    if lo ≤ hi then (digitRanges64 b.tail lo hi).map b.bytes else []

end Codemod.Text
