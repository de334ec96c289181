import Codemod.Pattern.Plan
import Std.Data.HashSet

/-!
# Search

Leftmost search with preference. A thread is a list of tasks at a place of the
text; `Task.next` lists what can become of it, the preferred way first.
`explore` follows the first thread of a stack until one has no task left, and
never enters the same task at the same place twice: a second visit either goes
around a loop without moving, or finds nothing that the first visit, which was
preferred, did not find. So the work is bounded by the product of pattern and
text.
-/

namespace Codemod.Pattern

/-- What is left to do: carry out a plan, end a group, or decide on another
round of a body. -/
inductive Task where
  | run (p : Plan)
  | close (n : Nat) (i : Nat)
  | again (n : Nat) (greedy : Bool) (p : Plan)

/-- The number of a task. -/
def Task.number : Task → Nat
  | .run p => p.number
  | .close n _ => n
  | .again n _ _ => n

/-- The places that a thread has marked, the latest mark first. Group `i` marks
its start under `2 * i` and its end under `2 * i + 1`. -/
abbrev Marks := List (Nat × Nat)

/-- A thread: tasks, a place, and the marks made on the way. -/
structure Thread where
  todo : List Task
  place : Nat
  marks : Marks

/-- The character before a place. -/
def before? (text : Array Char) (i : Nat) : Option Char :=
  if i = 0 then none else text[i - 1]?

/-- What becomes of a thread whose first task is `t` and whose other tasks are
`k`: the ways to go on, the preferred one first. -/
def Task.next (text : Array Char) (t : Task)
    (k : List Task) (i : Nat) (marks : Marks) :
    List Thread :=
  match t with
  | .run (.empty _) => [⟨k, i, marks⟩]
  | .run (.one _ s) => if text[i]?.any s.has then [⟨k, i + 1, marks⟩] else []
  | .run (.look _ a) =>
      if a.holds (before? text i) text[i]? then [⟨k, i, marks⟩] else []
  | .run (.group n g p) =>
      [⟨.run p :: .close (n + 1) g :: k, i, (2 * g, i) :: marks⟩]
  | .run (.seq _ p q) => [⟨.run p :: .run q :: k, i, marks⟩]
  | .run (.alt _ p q) => [⟨.run p :: k, i, marks⟩, ⟨.run q :: k, i, marks⟩]
  | .run (.star n greedy p) =>
    let round : Thread := ⟨.run p :: .run (.star n greedy p) :: k, i, marks⟩
    if greedy then [round, ⟨k, i, marks⟩] else [⟨k, i, marks⟩, round]
  | .run (.plus n greedy p) =>
      [⟨.run p :: .again (n + 1) greedy p :: k, i, marks⟩]
  | .close _ g => [⟨k, i, (2 * g + 1, i) :: marks⟩]
  | .again n greedy p =>
    let round : Thread := ⟨.run p :: .again n greedy p :: k, i, marks⟩
    if greedy then [round, ⟨k, i, marks⟩] else [⟨k, i, marks⟩, round]

/-- The visits so far, as numbers below a bound. -/
structure Visits where
  bound : Nat
  seen : Std.HashSet Nat

namespace Visits

/-- No visits yet. -/
def none (bound : Nat) : Visits := ⟨bound, ∅⟩

/-- The number has not been visited. -/
def isNew (v : Visits) (key : Nat) : Bool :=
  !v.seen.contains key

/-- The number is within bounds and has not been visited. -/
def allows (v : Visits) (key : Nat) : Bool :=
  key < v.bound && v.isNew key

/-- Note a visit. -/
def note (v : Visits) (key : Nat) : Visits :=
  { v with seen := v.seen.insert key }

/-- How many visits are left. -/
def left (v : Visits) : Nat :=
  (List.range v.bound).countP v.isNew

/-- A visit is new afterwards iff it was before and is another one. -/
theorem isNew_note (v : Visits) (key x : Nat) :
    (v.note key).isNew x = (key != x && v.isNew x) := by
  simp [isNew, note, Std.HashSet.contains_insert, bne]

/-- Among numbers that hold a new one, noting it leaves fewer new ones. -/
theorem countP_isNew_note (v : Visits) {key : Nat} (hnew : v.isNew key = true) :
    ∀ l : List Nat, key ∈ l →
      l.countP ((v.note key).isNew) < l.countP v.isNew
  | [], h => by cases h
  | x :: xs, h => by
    have hle : xs.countP ((v.note key).isNew) ≤ xs.countP v.isNew :=
      List.countP_mono_left fun y _ hy => by
        rw [isNew_note, Bool.and_eq_true] at hy
        exact hy.2
    rw [List.countP_cons, List.countP_cons, isNew_note]
    by_cases hx : key = x
    · subst hx
      simp [hnew]
      omega
    · have hmem : key ∈ xs := by
        rcases List.mem_cons.mp h with h | h
        · exact absurd h hx
        · exact h
      have := countP_isNew_note v hnew xs hmem
      simp [hx]
      omega

/-- A visit leaves fewer. -/
theorem left_note {v : Visits} {key : Nat} (h : v.allows key = true) :
    (v.note key).left < v.left := by
  rw [allows, Bool.and_eq_true, decide_eq_true_eq] at h
  exact countP_isNew_note v h.2 _ (List.mem_range.mpr h.1)

end Visits

/-- Follow the threads of a stack, the first one first, until one is done. -/
def explore (text : Array Char) (visits : Visits) (stack : List Thread) :
    Option Marks :=
  match stack with
  | [] => none
  | th :: rest =>
    match th.todo with
    | [] => some th.marks
    | t :: k =>
      let key := t.number * (text.size + 1) + th.place
      if visits.allows key then
        explore text (visits.note key) (t.next text k th.place th.marks ++ rest)
      else
        explore text visits rest
termination_by (visits.left, stack.length)
decreasing_by
  · exact Prod.Lex.left _ _ (Visits.left_note (by assumption))
  · exact Prod.Lex.right _ (Nat.lt_succ_self _)

/-- A plan for a whole pattern: the numbered expression and how many numbers it
uses. -/
structure Engine where
  plan : Plan
  size : Nat

/-- The engine of an expression. -/
def Engine.ofRegex (r : Regex) : Engine :=
  let (plan, size) := Plan.ofRegex 0 r
  { plan, size }

/-- The marks of the leftmost match that starts at `start` or later, the
preferred one of those at its place. -/
def Engine.find (e : Engine) (text : Array Char) (start : Nat) : Option Marks :=
  explore text (.none (e.size * (text.size + 1)))
    ((List.range' start (text.size + 1 - start)).map fun i =>
      ⟨[.run e.plan], i, []⟩)

end Codemod.Pattern
