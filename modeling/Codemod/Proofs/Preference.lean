import Codemod.Proofs.Direct

/-!
# The ways through an expression in order of preference

A reference for the search, which tries everything: `Regex.tried` lists all ways
through an expression from a place on, the preferred ones first. The order is as
it is told: the earlier branch of an alternative first, a further round of a
greedy repetition before its end, the end of a lazy one before a further round.

In a solid expression every round takes a character, so there are no more rounds
than characters, and the list is complete (`mem_tried_iff`). It is in order
(`inOrder_tried`), so the match at a place is its first entry, and what the
search finds is what trying everything finds (`allMatches_eq_allTried`).
-/

namespace Codemod.Pattern

/-- A way through an expression: where it ends, the marks, the choices. -/
structure Attempt where
  stop : Nat
  marks : Marks
  choices : List Bool
  deriving DecidableEq

namespace Attempt

/-- One way after the other. -/
def andThen (x y : Attempt) : Attempt :=
  ⟨y.stop, x.marks ++ y.marks, x.choices ++ y.choices⟩

/-- A way behind a choice. -/
def after (second : Bool) (x : Attempt) : Attempt :=
  { x with choices := second :: x.choices }

end Attempt

/-- The ways through one part and then through another. -/
def tryBoth (first second : Nat → List Attempt) (i : Nat) : List Attempt :=
  (first i).flatMap fun x => (second x.stop).map x.andThen

/-- The ways through at most `n` rounds of a body. -/
def tryRounds (body : Nat → List Attempt) (greedy : Bool) :
    Nat → Nat → List Attempt
  | 0, i => [⟨i, [], [greedy]⟩]
  | n + 1, i =>
    let more := (tryBoth body (tryRounds body greedy n) i).map
      (Attempt.after (!greedy))
    if greedy then more ++ [⟨i, [], [greedy]⟩] else ⟨i, [], [greedy]⟩ :: more

/-- All ways through an expression from a place on, the preferred ones first. -/
def Regex.tried (text : Array Char) : Regex → Nat → List Attempt
  | .empty, i => [⟨i, [], []⟩]
  | .one s, i => if text[i]?.any s.has then [⟨i + 1, [], []⟩] else []
  | .look a, i =>
    if a.holds (before? text i) text[i]? then [⟨i, [], []⟩] else []
  | .group g r, i => (r.tried text i).map fun x =>
    { x with marks := (2 * g, i) :: (x.marks ++ [(2 * g + 1, x.stop)]) }
  | .seq r s, i => tryBoth (r.tried text) (s.tried text) i
  | .alt r s, i =>
    (r.tried text i).map (Attempt.after false) ++
      (s.tried text i).map (Attempt.after true)
  | .star greedy r, i => tryRounds (r.tried text) greedy (text.size - i) i
  | .plus greedy r, i =>
    tryBoth (r.tried text)
      (fun j => tryRounds (r.tried text) greedy (text.size - j) j) i

section

variable {text : Array Char} {r s : Regex} {i j k : Nat} {l : Marks}
  {c : List Bool} {greedy : Bool}

theorem Passes.le_size (h : Passes text r i j l c) (hi : i ≤ text.size) :
    j ≤ text.size :=
  (h.takes hi).le_size

theorem Passes.lt (h : Passes text r i j l c) (hr : r.mayBeEmpty = false) :
    i < j := by
  refine Nat.lt_of_le_of_ne h.le fun heq => ?_
  obtain ⟨t, ht, -, -⟩ := h.way (Plan.regex_ofRegex 0 r)
  have hempty := ht.mayBeEmpty heq.symm
  rw [Plan.regex_ofRegex, hr] at hempty
  cases hempty

theorem passes_seq : Passes text (.seq r s) i k l c ↔
    ∃ j m m' d d', Passes text r i j m d ∧ Passes text s j k m' d' ∧
      l = m ++ m' ∧ c = d ++ d' := by
  constructor
  · intro h
    cases h with
    | seq h h' => exact ⟨_, _, _, _, _, h, h', rfl, rfl⟩
  · rintro ⟨j, m, m', d, d', h, h', rfl, rfl⟩
    exact .seq h h'

theorem passes_star : Passes text (.star greedy r) i k l c ↔
    (k = i ∧ l = [] ∧ c = [greedy]) ∨
      ∃ d, Passes text (.seq r (.star greedy r)) i k l d ∧
      c = (!greedy) :: d := by
  constructor
  · intro h
    cases h with
    | stop => exact .inl ⟨rfl, rfl, rfl⟩
    | round h h' => exact .inr ⟨_, .seq h h', rfl⟩
  · rintro (⟨rfl, rfl, rfl⟩ | ⟨d, h, rfl⟩)
    · exact .stop _ _ _
    · cases h with
      | seq h h' => exact .round h h'

theorem passes_plus : Passes text (.plus greedy r) i k l c ↔
    Passes text (.seq r (.star greedy r)) i k l c := by
  constructor
  · intro h
    cases h with
    | plus h h' => exact .seq h h'
  · intro h
    cases h with
    | seq h h' => exact .plus h h'

/-! ## All ways are tried -/

theorem mem_tryBoth_iff {f g : Nat → List Attempt}
    (hf : ∀ {j l c}, ⟨j, l, c⟩ ∈ f i ↔ Passes text r i j l c)
    (hg : ∀ {j k l c m d}, Passes text r i j m d →
      (⟨k, l, c⟩ ∈ g j ↔ Passes text s j k l c)) :
    ⟨k, l, c⟩ ∈ tryBoth f g i ↔ Passes text (.seq r s) i k l c := by
  rw [tryBoth, List.mem_flatMap, passes_seq]
  constructor
  · rintro ⟨⟨j, m, d⟩, hx, hmap⟩
    obtain ⟨⟨k, m', d'⟩, hy, heq⟩ := List.mem_map.mp hmap
    cases heq
    have hfirst := hf.mp hx
    exact ⟨j, m, m', d, d', hfirst, (hg hfirst).mp hy, rfl, rfl⟩
  · rintro ⟨j, m, m', d, d', h, h', rfl, rfl⟩
    exact ⟨⟨j, m, d⟩, hf.mpr h,
      List.mem_map.mpr ⟨⟨k, m', d'⟩, (hg h).mpr h', rfl⟩⟩

theorem mem_after_iff {second : Bool} {xs : List Attempt} :
    ⟨k, l, c⟩ ∈ xs.map (Attempt.after second) ↔
      ∃ d, ⟨k, l, d⟩ ∈ xs ∧ c = second :: d := by
  rw [List.mem_map]
  constructor
  · rintro ⟨⟨k', l', d⟩, hx, heq⟩
    cases heq
    exact ⟨d, hx, rfl⟩
  · rintro ⟨d, hx, rfl⟩
    exact ⟨_, hx, rfl⟩

theorem mem_tryRounds_iff {body : Nat → List Attempt} {n : Nat}
    (hbody : ∀ {i j l c}, i ≤ text.size →
      (⟨j, l, c⟩ ∈ body i ↔ Passes text r i j l c))
    (hr : r.mayBeEmpty = false) (hi : i ≤ text.size) (hn : text.size - i ≤ n) :
    ⟨k, l, c⟩ ∈ tryRounds body greedy n i ↔
      Passes text (.star greedy r) i k l c := by
  induction n generalizing i k l c with
  | zero =>
      rw [tryRounds, List.mem_singleton, passes_star, Attempt.mk.injEq]
      refine ⟨.inl, Or.rec id fun ⟨d, h, _⟩ => ?_⟩
      obtain ⟨j, _, _, _, _, hround, -⟩ := passes_seq.mp h
      have hlt := hround.lt hr
      have hsize := hround.le_size hi
      omega
  | succ n ih =>
      have hmore : ⟨k, l, c⟩ ∈ (tryBoth body (tryRounds body greedy n) i).map
          (Attempt.after (!greedy)) ↔
          ∃ d, Passes text (.seq r (.star greedy r)) i k l d ∧
            c = (!greedy) :: d := by
        rw [mem_after_iff]
        refine exists_congr fun d => and_congr_left fun _ => ?_
        refine mem_tryBoth_iff (hbody hi) fun hround => ?_
        have hlt := hround.lt hr
        exact ih (hround.le_size hi) (by omega)
      have hstop : (⟨k, l, c⟩ : Attempt) = ⟨i, [], [greedy]⟩ ↔
          k = i ∧ l = [] ∧ c = [greedy] := by rw [Attempt.mk.injEq]
      rw [passes_star, ← hmore, ← hstop, tryRounds]
      cases greedy with
      | false => exact List.mem_cons
      | true =>
          rw [if_pos rfl, List.mem_append, List.mem_singleton]
          exact or_comm

/-- All ways through a solid expression are tried, and nothing else. -/
theorem mem_tried_iff (hr : r.solid = true) (hi : i ≤ text.size) :
    ⟨j, l, c⟩ ∈ r.tried text i ↔ Passes text r i j l c := by
  induction r generalizing i j l c with
  | empty =>
      rw [Regex.tried, List.mem_singleton, Attempt.mk.injEq]
      constructor
      · rintro ⟨rfl, rfl, rfl⟩
        exact .empty _
      · rintro ⟨⟩
        exact ⟨rfl, rfl, rfl⟩
  | one s =>
      rw [Regex.tried]
      constructor
      · intro hmem
        split at hmem
        · next h =>
            obtain ⟨x, hx, hs⟩ := (Option.any_eq_true _ _).mp h
            cases List.mem_singleton.mp hmem
            exact .one hx hs
        · cases hmem
      · intro h
        cases h with
        | one hx hs => simp [hx, hs]
  | look a =>
      rw [Regex.tried]
      constructor
      · intro hmem
        split at hmem
        · next h =>
            cases List.mem_singleton.mp hmem
            exact .look h
        · cases hmem
      · intro h
        cases h with
        | look h => simp [h]
  | group g r ih =>
      rw [Regex.tried, List.mem_map]
      constructor
      · rintro ⟨⟨j, m, d⟩, hx, heq⟩
        cases heq
        exact .group g ((ih hr hi).mp hx)
      · intro h
        cases h with
        | group _ h => exact ⟨_, (ih hr hi).mpr h, rfl⟩
  | seq r s ihr ihs =>
      rw [Regex.solid, Bool.and_eq_true] at hr
      exact mem_tryBoth_iff (ihr hr.1 hi) fun h => ihs hr.2 (h.le_size hi)
  | alt r s ihr ihs =>
      rw [Regex.solid, Bool.and_eq_true] at hr
      rw [Regex.tried, List.mem_append, mem_after_iff, mem_after_iff]
      simp only [ihr hr.1 hi, ihs hr.2 hi]
      constructor
      · rintro (⟨d, h, rfl⟩ | ⟨d, h, rfl⟩)
        · exact .altLeft h
        · exact .altRight h
      · intro h
        cases h with
        | altLeft h => exact .inl ⟨_, h, rfl⟩
        | altRight h => exact .inr ⟨_, h, rfl⟩
  | star greedy r ih =>
      rw [Regex.solid, Bool.and_eq_true, Bool.not_eq_true'] at hr
      exact mem_tryRounds_iff (ih hr.2) hr.1 hi (Nat.le_refl _)
  | plus greedy r ih =>
      rw [Regex.solid, Bool.and_eq_true, Bool.not_eq_true'] at hr
      rw [passes_plus]
      exact mem_tryBoth_iff (ih hr.2 hi) fun h =>
        mem_tryRounds_iff (ih hr.2) hr.1 (h.le_size hi) (Nat.le_refl _)

end

/-! ## The preferred ways are tried first -/

theorem Before.append_right {a b : List Bool} (h : Before a b)
    (c d : List Bool) : Before (a ++ c) (b ++ d) := by
  induction h with
  | fork a b => exact .fork _ _
  | same x _ ih => exact .same x ih

/-- Each way is preferred to all that stand behind it. -/
def InOrder (xs : List Attempt) : Prop :=
  xs.Pairwise fun x y => Before x.choices y.choices

theorem inOrder_tryBoth {f g : Nat → List Attempt} (i : Nat)
    (hf : InOrder (f i)) (hg : ∀ j, InOrder (g j)) :
    InOrder (tryBoth f g i) := by
  rw [InOrder, tryBoth, List.pairwise_flatMap]
  constructor
  · intro x _
    rw [List.pairwise_map]
    exact (hg x.stop).imp fun h => h.append_left x.choices
  · refine hf.imp fun {x x'} h y hy z hz => ?_
    obtain ⟨y, -, rfl⟩ := List.mem_map.mp hy
    obtain ⟨z, -, rfl⟩ := List.mem_map.mp hz
    exact h.append_right _ _

theorem inOrder_after {xs : List Attempt} (h : InOrder xs) (second : Bool) :
    InOrder (xs.map (Attempt.after second)) := by
  rw [InOrder, List.pairwise_map]
  exact h.imp fun h => .same second h

theorem inOrder_tryRounds {body : Nat → List Attempt} {greedy : Bool}
    (hbody : ∀ i, InOrder (body i)) (n i : Nat) :
    InOrder (tryRounds body greedy n i) := by
  induction n generalizing i with
  | zero => exact List.pairwise_singleton _ _
  | succ n ih =>
      have hmore := inOrder_after (inOrder_tryBoth i (hbody i) ih) (!greedy)
      rw [tryRounds]
      cases greedy with
      | false =>
          refine List.pairwise_cons.mpr ⟨fun y hy => ?_, hmore⟩
          obtain ⟨y, -, rfl⟩ := List.mem_map.mp hy
          exact .fork _ _
      | true =>
          refine List.pairwise_append.mpr
            ⟨hmore, List.pairwise_singleton _ _, fun x hx y hy => ?_⟩
          obtain ⟨x, -, rfl⟩ := List.mem_map.mp hx
          cases List.mem_singleton.mp hy
          exact .fork _ _

theorem inOrder_tried (text : Array Char) (r : Regex) (i : Nat) :
    InOrder (r.tried text i) := by
  induction r generalizing i with
  | empty => exact List.pairwise_singleton _ _
  | one s =>
      rw [Regex.tried]
      split
      · exact List.pairwise_singleton _ _
      · exact .nil
  | look a =>
      rw [Regex.tried]
      split
      · exact List.pairwise_singleton _ _
      · exact .nil
  | group g r ih =>
      rw [Regex.tried, InOrder, List.pairwise_map]
      exact ih i
  | seq r s ihr ihs => exact inOrder_tryBoth i (ihr i) ihs
  | alt r s ihr ihs =>
      refine List.pairwise_append.mpr
        ⟨inOrder_after (ihr i) _, inOrder_after (ihs i) _, ?_⟩
      intro x hx y hy
      obtain ⟨x, -, rfl⟩ := List.mem_map.mp hx
      obtain ⟨y, -, rfl⟩ := List.mem_map.mp hy
      exact .fork _ _
  | star greedy r ih => exact inOrder_tryRounds ih _ i
  | plus greedy r ih =>
      exact inOrder_tryBoth i (ih i) fun j => inOrder_tryRounds ih _ j

/-- Of all ways through an expression from a place on, the way is preferred. -/
structure Chosen (text : Array Char) (r : Regex) (i j : Nat) (l : Marks)
    (c : List Bool) : Prop where
  passes : Passes text r i j l c
  first : ∀ j' l' c', Passes text r i j' l' c' → c' = c ∨ Before c c'

theorem chosen_of_tried {text : Array Char} {r : Regex} {i : Nat} {x : Attempt}
    {xs : List Attempt} (hr : r.solid = true) (hi : i ≤ text.size)
    (h : r.tried text i = x :: xs) :
    Chosen text r i x.stop x.marks x.choices where
  passes := by
    rw [← mem_tried_iff hr hi, h]
    exact List.mem_cons_self
  first j l c hpasses := by
    have horder := inOrder_tried text r i
    rw [← mem_tried_iff hr hi, h] at hpasses
    rw [h] at horder
    rcases List.mem_cons.mp hpasses with rfl | hlater
    · exact .inl rfl
    · exact .inr ((List.pairwise_cons.mp horder).1 _ hlater)

/-! ## The matches -/

/-- The match of a way from a place on. -/
def Attempt.found (i : Nat) (x : Attempt) : Match :=
  ⟨i, x.stop, ((0, i) :: (x.marks ++ [(1, x.stop)])).reverse⟩

/-- The first of the ways from the first of `n` places that has any. -/
def Regex.firstTried (text : Array Char) (r : Regex) : Nat → Nat → Option Match
  | 0, _ => none
  | n + 1, i =>
    match r.tried text i with
    | x :: _ => some (x.found i)
    | [] => r.firstTried text n (i + 1)

/-- The next match after one that ended at `last`, as the search has it. -/
def Regex.nextTried (text : Array Char) (r : Regex) (last : Nat) :
    Option Match :=
  match r.firstTried text (text.size + 1 - last) last with
  | some m =>
    if m.isEmpty && m.stop == last then
      r.firstTried text (text.size + 1 - (last + 1)) (last + 1)
    else some m
  | none => none

/-- At most `n` matches after one that ended at `last`. -/
def Regex.triedAfter (text : Array Char) (r : Regex) : Nat → Nat → List Match
  | 0, _ => []
  | n + 1, last =>
    match r.nextTried text last with
    | some m => m :: r.triedAfter text n m.stop
    | none => []

/-- All matches, from left to right. -/
def Regex.allTried (text : Array Char) (r : Regex) : List Match :=
  match r.firstTried text (text.size + 1) 0 with
  | some m => m :: r.triedAfter text text.size m.stop
  | none => []

section

variable {text : Array Char} {r : Regex} {i k n : Nat}

theorem firstTried_eq_none (h : ∀ k, i ≤ k → k < i + n → r.tried text k = []) :
    r.firstTried text n i = none := by
  induction n generalizing i with
  | zero => rfl
  | succ n ih =>
      rw [Regex.firstTried, h i (Nat.le_refl i) (by omega)]
      exact ih fun k hk hlt => h k (by omega) (by omega)

theorem firstTried_eq_some {x : Attempt} {xs : List Attempt}
    (hk : r.tried text k = x :: xs) (hik : i ≤ k) (hlt : k < i + n)
    (h : ∀ k', i ≤ k' → k' < k → r.tried text k' = []) :
    r.firstTried text n i = some (x.found k) := by
  induction n generalizing i with
  | zero => omega
  | succ n ih =>
      by_cases heq : i = k
      · subst heq
        rw [Regex.firstTried, hk]
      · rw [Regex.firstTried, h i (Nat.le_refl i) (by omega)]
        exact ih (by omega) (by omega) fun k' hk' hlt' => h k' (by omega) hlt'

variable {p : Pattern} (he : p.engine = .ofRegex (.group 0 r))

include he

theorem regex_of_engine : p.engine.plan.regex = .group 0 r := by
  rw [he]
  exact Plan.regex_ofRegex 0 (.group 0 r)

theorem canMatch_iff_passes {j : Nat} : p.CanMatch text i j ↔
    i ≤ text.size ∧ ∃ l c, Passes text r i j l c := by
  have hregex := regex_of_engine he
  refine and_congr_right fun _ => ⟨?_, ?_⟩
  · rintro ⟨t, ht⟩
    have hpasses := ht.passes
    rw [hregex] at hpasses
    generalize t.marks = marks at hpasses
    cases hpasses with
    | group _ h => exact ⟨_, _, h⟩
  · rintro ⟨l, c, h⟩
    obtain ⟨t, ht, -, -⟩ := (Passes.group 0 h).way hregex
    exact ⟨t, ht⟩

theorem tried_eq_nil_iff (hr : r.solid = true) (hi : i ≤ text.size) :
    r.tried text i = [] ↔ ∀ j, ¬ p.CanMatch text i j := by
  rw [List.eq_nil_iff_forall_not_mem]
  constructor
  · intro h j hcan
    obtain ⟨-, l, c, hpasses⟩ := (canMatch_iff_passes he).mp hcan
    exact h _ ((mem_tried_iff hr hi).mpr hpasses)
  · rintro h ⟨j, l, c⟩ hmem
    exact h j
      ((canMatch_iff_passes he).mpr ⟨hi, l, c, (mem_tried_iff hr hi).mp hmem⟩)

/-- The first match is the first way that is tried. -/
theorem First.head {m : Match} (hm : p.First text k m) (hr : r.solid = true) :
    ∃ x xs, r.tried text m.start = x :: xs ∧ m = x.found m.start := by
  obtain ⟨l, c, hpasses, hhas, hbest⟩ := hm.chosen he hr
  have hmem := (mem_tried_iff hr hm.start_le).mpr hpasses
  cases htried : r.tried text m.start with
  | nil =>
      rw [htried] at hmem
      cases hmem
  | cons x xs =>
      have horder := inOrder_tried text r m.start
      have hx := (chosen_of_tried hr hm.start_le htried).passes
      rw [htried] at hmem horder
      rcases List.mem_cons.mp hmem with rfl | hlater
      · exact ⟨_, xs, rfl, by rw [Attempt.found, ← hhas]⟩
      · have hbefore := (List.pairwise_cons.mp horder).1 _ hlater
        rcases hbest _ _ _ hx with heq | hafter
        · rw [heq] at hbefore
          exact absurd hbefore hbefore.asymm
        · exact absurd hafter hbefore.asymm

/-- The search finds what trying all ways finds first. -/
theorem find?_eq_firstTried (hp : p.Whole) (hr : r.solid = true) (k : Nat) :
    p.find? text k = r.firstTried text (text.size + 1 - k) k := by
  have hspec := find?_spec hp text k
  cases hfind : p.find? text k with
  | none =>
      rw [hfind] at hspec
      refine (firstTried_eq_none fun i hi hlt => ?_).symm
      exact (tried_eq_nil_iff he hr (by omega)).mpr fun j => hspec i j hi
  | some m =>
      rw [hfind] at hspec
      have hm : p.First text k m := hspec
      obtain ⟨x, xs, hx, heq⟩ := hm.head he hr
      have hle := hm.start_le
      have hstart := hm.le_start
      rw [firstTried_eq_some hx hstart (by omega), ← heq]
      intro i hi hlt
      exact (tried_eq_nil_iff he hr (by omega)).mpr fun j => hm.least i j hi hlt

theorem findNext?_eq_nextTried (hp : p.Whole) (hr : r.solid = true)
    (last : Nat) : p.findNext? text last = r.nextTried text last := by
  rw [findNext?, Regex.nextTried, find?_eq_firstTried he hp hr]
  cases r.firstTried text (text.size + 1 - last) last with
  | none => rfl
  | some m => simp only [find?_eq_firstTried he hp hr]

theorem matchesAfter_eq_triedAfter (hp : p.Whole) (hr : r.solid = true)
    {n last : Nat} (hn : text.size ≤ n + last) :
    p.matchesAfter text last = r.triedAfter text n last := by
  have hstop : ∀ {last : Nat} {m : Match}, p.findNext? text last = some m →
      last < m.stop ∧ m.stop ≤ text.size :=
    fun h => ((findNext?_eq_some_iff hp).mp h).lt_stop.2
  induction n generalizing last with
  | zero =>
      rw [matchesAfter]
      cases hnext : p.findNext? text last with
      | none => rfl
      | some m =>
          have hm := hstop hnext
          omega
  | succ n ih =>
      rw [matchesAfter, Regex.triedAfter, ← findNext?_eq_nextTried he hp hr]
      cases hnext : p.findNext? text last with
      | none => rfl
      | some m =>
          have hm := hstop hnext
          simp only [if_pos hm, ih (show text.size ≤ n + m.stop by omega)]

/-- The matches that are found are those that trying all ways finds. -/
theorem allMatches_eq_allTried (hp : p.Whole) (hr : r.solid = true) :
    p.allMatches text = r.allTried text := by
  rw [allMatches, Regex.allTried, find?_eq_firstTried he hp hr, Nat.sub_zero]
  cases r.firstTried text (text.size + 1) 0 with
  | none => rfl
  | some m =>
      simp only [matchesAfter_eq_triedAfter he hp hr (Nat.le_add_right _ _)]

end

end Codemod.Pattern
