/-!
# Sets of code points given by ranges

The character properties of this library are data: closed ranges of code
points, in ascending order and with a gap between any two. Sets are built from
such lists by union and complement, which keep that form, so two lists are
equal exactly when they cover the same code points.
-/

namespace Codemod.Text

/-- Closed ranges of code points, in ascending order and with gaps between
them. -/
abbrev Ranges := List (Nat × Nat)

namespace Ranges

/-- The greatest code point. -/
def maxCode : Nat := 0x10ffff

/-- Some range holds the code point. The search ends at the first range beyond
it. -/
def has : Ranges → Nat → Bool
  | [], _ => false
  | (lo, hi) :: rs, n => lo ≤ n && (n ≤ hi || has rs n)

/-- Add a range. Ranges that it touches or overlaps become one with it. -/
def insert (lo hi : Nat) : Ranges → Ranges
  | [] => [(lo, hi)]
  | (a, b) :: rs =>
    if hi + 1 < a then (lo, hi) :: (a, b) :: rs
    else if b + 1 < lo then (a, b) :: insert lo hi rs
    else insert (min lo a) (max hi b) rs

/-- The union of two sets. -/
def union (rs ss : Ranges) : Ranges :=
  rs.foldr (fun r acc => insert r.1 r.2 acc) ss

/-- The code points from `n` on that no range holds. -/
def gapsFrom (n : Nat) : Ranges → Ranges
  | [] => if n ≤ maxCode then [(n, maxCode)] else []
  | (lo, hi) :: rs =>
    if n < lo then (n, lo - 1) :: gapsFrom (hi + 1) rs else gapsFrom (hi + 1) rs

/-- The code points that no range holds. -/
def complement (rs : Ranges) : Ranges :=
  gapsFrom 0 rs

end Ranges

end Codemod.Text
