import Codemod.Pattern.Size.Tally

/-!
# The size of a choice between texts

An alternative whose branches are all plain texts is read along a tree: texts
that begin alike share the states for their beginning, as far as the order of
the branches allows. A text that ends where a later one goes on divides the
tree there, because it is preferred to what follows.
-/

namespace Codemod.Pattern.Tally

/-- The texts that arrive at a place of the tree, cut where one of them ends. -/
def runs : List (List Nat) → List (List (List Nat))
  | [] => [[]]
  | [] :: ws => [] :: runs ws
  | w :: ws =>
    match runs ws with
    | r :: rs => (w :: r) :: rs
    | [] => [[w]]

/-- The number of texts that end at a place. Those that end there before any
other text goes on count as one. -/
def ends (ws : List (List Nat)) : Nat :=
  let later := (ws.dropWhile (·.isEmpty)).countP (·.isEmpty)
  if ws.head?.any (·.isEmpty) then later + 1 else later

/-- What follows a byte in some texts. -/
def after (b : Nat) (ws : List (List Nat)) : List (List Nat) :=
  ws.filterMap fun w => if w.head? = some b then some w.tail else none

/-- Count the states of the tree of some texts, which have less than `depth`
bytes. The bytes of a run are read by one state, and one more state chooses
between the runs and the ends. -/
def tree : Nat → List (List Nat) → Tally → Tally
  | 0, _, t => t
  | depth + 1, ws, t =>
    if ws.all (·.isEmpty) then t
    else
      let nonEmpty := (runs ws).filter (!·.isEmpty)
      let t := nonEmpty.foldl (fun t run =>
        let firsts := (run.filterMap (·.head?)).eraseDups
        let t :=
          if firsts.length < 2 then t.plain 1 else t.reading firsts.length
        firsts.foldl (fun t b => tree depth (after b run) t) t) t
      t.choosing (nonEmpty.length + ends ws)

/-- Count the states of a choice between texts. -/
def words (ws : List (List Nat)) (t : Tally) : Tally :=
  tree (ws.foldl (fun n w => max n w.length) 0 + 1) ws (t.plain 1)

end Codemod.Pattern.Tally
