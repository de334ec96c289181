import Codemod.Pattern.Regex

/-!
# Plans

A plan is a regular expression whose steps are numbered. The search keeps a
list of tasks, and the number of its first task tells which list it is: where a
plan stands, what is left to do after it is fixed. That lets the search
remember where it has been by a pair of numbers.
-/

namespace Codemod.Pattern

/-- A regular expression with a number for each step. A group and a "one or
more" have two steps, `n` on the way in and `n + 1` at the end of the body. An
"any number" has one step `n` for both: the end of its body is its
beginning. -/
inductive Plan where
  | empty (n : Nat)
  | one (n : Nat) (s : CharSet)
  | look (n : Nat) (a : Anchor)
  | group (n : Nat) (i : Nat) (p : Plan)
  | seq (n : Nat) (p q : Plan)
  | alt (n : Nat) (p q : Plan)
  | star (n : Nat) (greedy : Bool) (p : Plan)
  | plus (n : Nat) (greedy : Bool) (p : Plan)

namespace Plan

/-- The number of the first step. -/
def number : Plan → Nat
  | .empty n | .one n _ | .look n _ | .group n _ _ | .seq n _ _ | .alt n _ _ =>
      n
  | .star n _ _ | .plus n _ _ => n

/-- The expression without its numbers. -/
def regex : Plan → Regex
  | .empty _ => .empty
  | .one _ s => .one s
  | .look _ a => .look a
  | .group _ i p => .group i p.regex
  | .seq _ p q => .seq p.regex q.regex
  | .alt _ p q => .alt p.regex q.regex
  | .star _ greedy p => .star greedy p.regex
  | .plus _ greedy p => .plus greedy p.regex

/-- The plan of an expression with numbers from `n` on, and the first number
that is left. -/
def ofRegex (n : Nat) : Regex → Plan × Nat
  | .empty => (.empty n, n + 1)
  | .one s => (.one n s, n + 1)
  | .look a => (.look n a, n + 1)
  | .group i r =>
    let (p, m) := ofRegex (n + 2) r
    (.group n i p, m)
  | .seq r s =>
    let (p, m) := ofRegex (n + 1) r
    let (q, k) := ofRegex m s
    (.seq n p q, k)
  | .alt r s =>
    let (p, m) := ofRegex (n + 1) r
    let (q, k) := ofRegex m s
    (.alt n p q, k)
  | .star greedy r =>
    let (p, m) := ofRegex (n + 1) r
    (.star n greedy p, m)
  | .plus greedy r =>
    let (p, m) := ofRegex (n + 2) r
    (.plus n greedy p, m)

/-- Numbering forgets nothing. -/
theorem regex_ofRegex (n : Nat) (r : Regex) : (ofRegex n r).1.regex = r := by
  induction r generalizing n with
  | empty | one | look => rfl
  | group i r ih => simp [ofRegex, regex, ih]
  | seq r s ihr ihs => simp [ofRegex, regex, ihr, ihs]
  | alt r s ihr ihs => simp [ofRegex, regex, ihr, ihs]
  | star greedy r ih => simp [ofRegex, regex, ih]
  | plus greedy r ih => simp [ofRegex, regex, ih]

end Plan

end Codemod.Pattern
