import Codemod.Proofs.Replace

/-!
# Brackets

The brackets of a text are a word over six signs. `WellNested` is the grammar
of those words in which every bracket is closed by one of its own kind, and
`nest` reads a word with a stack of the brackets that are open;
`wellNested_iff_nest` says that the two agree.

What replacing a part of a text does to its brackets is a question about
`nest`, since it can be asked of parts: `Keeps` says that the second word can
stand wherever the first one can. Two well nested words can always stand for
each other. A word that is not known to be well nested by itself may still have
to be so where it stands: between an opening and a closing parenthesis, if
parentheses are only one level deep in it (`Shallow.enclosed`). Whatever other
brackets it leaves open or closes in excess, the closing parenthesis behind it
would meet them.
-/

namespace Codemod

/-- The kinds of brackets. -/
inductive Bracket where
  | round
  | square
  | curly
  deriving Repr, DecidableEq

/-- A bracket that is opened or closed. -/
inductive Sign where
  | opens (b : Bracket)
  | closes (b : Bracket)
  deriving Repr, DecidableEq

namespace Sign

def bracket : Sign → Bracket
  | opens b | closes b => b

/-- The character of the sign. -/
def char : Sign → Char
  | opens .round => '('
  | closes .round => ')'
  | opens .square => '['
  | closes .square => ']'
  | opens .curly => '\x7b'
  | closes .curly => '\x7d'

def all : List Sign :=
  [opens .round, closes .round, opens .square, closes .square, opens .curly,
    closes .curly]

/-- The sign that a character is, if it is one. -/
def of? (c : Char) : Option Sign := all.find? (·.char == c)

theorem mem_all (x : Sign) : x ∈ all := by
  cases x with
  | opens b | closes b => cases b <;> decide

theorem of?_char (x : Sign) : of? x.char = some x := by
  cases x with
  | opens b | closes b => cases b <;> rfl

theorem of?_eq_some {c : Char} {x : Sign} : of? c = some x ↔ x.char = c := by
  constructor
  · intro h
    exact beq_iff_eq.mp (List.find?_some (p := fun y : Sign => y.char == c) h)
  · intro h
    rw [← h, of?_char]

end Sign

open Sign

/-- The brackets of a text, in order. -/
def signs (w : List Char) : List Sign := w.filterMap of?

theorem signs_append (u v : List Char) : signs (u ++ v) = signs u ++ signs v :=
  List.filterMap_append

theorem signs_cons_of_none {c : Char} (h : of? c = none) (w : List Char) :
    signs (c :: w) = signs w :=
  List.filterMap_cons_none h

theorem signs_cons_of_some {c : Char} {x : Sign}
    (h : of? c = some x) (w : List Char) :
    signs (c :: w) = x :: signs w :=
  List.filterMap_cons_some h

theorem count_signs (x : Sign) (w : List Char) :
    (signs w).count x = w.count x.char := by
  induction w with
  | nil => rfl
  | cons c w ih =>
      by_cases hc : x.char = c
      · rw [signs_cons_of_some (of?_eq_some.mpr hc), ← hc, List.count_cons_self,
          List.count_cons_self, ih]
      · rw [List.count_cons_of_ne (Ne.symm hc)]
        cases hsome : of? c with
        | none => rw [signs_cons_of_none hsome, ih]
        | some y =>
            have hne : y ≠ x := fun heq => hc (heq ▸ of?_eq_some.mp hsome)
            rw [signs_cons_of_some hsome, List.count_cons_of_ne hne, ih]

/-- How many brackets of a kind a text opens more than it closes. -/
def balance (b : Bracket) (w : List Char) : Int :=
  (w.count (opens b).char : Int) - w.count (closes b).char

/-! ## Nesting -/

/-- Every bracket is closed by one of its kind, and what stands between the two
is well nested. -/
inductive WellNested : List Sign → Prop where
  | nil : WellNested []
  | pair (b : Bracket) {u v : List Sign}
      (hu : WellNested u) (hv : WellNested v) :
      WellNested (opens b :: (u ++ closes b :: v))

/-- The brackets that are open behind a word, the innermost one first, if `s`
are open before it. A bracket that is closed has to be the innermost one. -/
def nest : List Bracket → List Sign → Option (List Bracket)
  | s, [] => some s
  | s, .opens b :: w => nest (b :: s) w
  | [], .closes _ :: _ => none
  | b' :: s, .closes b :: w => if b' = b then nest s w else none

@[simp] theorem nest_nil (s : List Bracket) : nest s [] = some s := by
  cases s <;> rfl

@[simp] theorem nest_opens (s : List Bracket) (b : Bracket) (w : List Sign) :
    nest s (opens b :: w) = nest (b :: s) w := by
  cases s <;> rfl

@[simp] theorem nest_closes (s : List Bracket) (b b' : Bracket)
    (w : List Sign) :
    nest (b' :: s) (closes b :: w) = if b' = b then nest s w else none := rfl

theorem nest_append (s : List Bracket) (u v : List Sign) :
    nest s (u ++ v) = (nest s u).bind (nest · v) := by
  induction u generalizing s with
  | nil => simp
  | cons x u ih =>
      cases x with
      | opens b => simp [ih]
      | closes b =>
          cases s with
          | nil => rfl
          | cons b' s =>
              by_cases hb : b' = b
              · simp [hb, ih]
              · simp [hb]

theorem WellNested.nest_append {w : List Sign} (h : WellNested w)
    (s : List Bracket) (v : List Sign) : nest s (w ++ v) = nest s v := by
  induction h generalizing s v with
  | nil => rfl
  | pair b _ _ ihu ihv =>
      rw [List.cons_append, nest_opens, List.append_assoc, ihu,
        List.cons_append, nest_closes, if_pos rfl, ihv]

theorem WellNested.nest {w : List Sign} (h : WellNested w) (s : List Bracket) :
    nest s w = some s := by
  have hnest := h.nest_append s []
  rw [List.append_nil, nest_nil] at hnest
  exact hnest

/-- The word closes the brackets that are open one by one, and all around this
is well nested. -/
def Finishes : List Bracket → List Sign → Prop
  | [], w => WellNested w
  | b :: s, w => ∃ u v, WellNested u ∧ w = u ++ closes b :: v ∧ Finishes s v

theorem Finishes.pair {s : List Bracket} {b : Bracket} {u v : List Sign}
    (hu : WellNested u)
    (hv : Finishes s v) : Finishes s (opens b :: (u ++ closes b :: v)) := by
  cases s with
  | nil => exact WellNested.pair b hu hv
  | cons b' s =>
      obtain ⟨u', v', hu', rfl, hv'⟩ := hv
      exact ⟨_, v', WellNested.pair b hu hu', by simp, hv'⟩

theorem finishes_of_nest {s : List Bracket} {w : List Sign}
    (h : nest s w = some []) :
    Finishes s w := by
  induction w generalizing s with
  | nil =>
      rw [nest_nil] at h
      cases h
      exact .nil
  | cons x w ih =>
      cases x with
      | opens b =>
          rw [nest_opens] at h
          obtain ⟨u, v, hu, rfl, hv⟩ := ih h
          exact .pair hu hv
      | closes b =>
          cases s with
          | nil => cases h
          | cons b' s =>
              rw [nest_closes] at h
              split at h
              · next hb => exact ⟨[], w, .nil, by rw [hb]; rfl, ih h⟩
              · cases h

theorem wellNested_iff_nest {w : List Sign} :
    WellNested w ↔ nest [] w = some [] :=
  ⟨fun h => h.nest [], fun h => finishes_of_nest h⟩

instance (w : List Sign) : Decidable (WellNested w) :=
  decidable_of_iff _ wellNested_iff_nest.symm

example : WellNested
      (signs "expect(rows[0]).toEqual(\x7b a: [1, 2] \x7d)".toList) := by decide

example : ¬ WellNested (signs "if (x[0)]".toList) := by decide

theorem WellNested.count {w : List Sign} (h : WellNested w) (b : Bracket) :
    w.count (opens b) = w.count (closes b) := by
  induction h with
  | nil => rfl
  | pair b' _ _ ihu ihv =>
      simp only [List.count_cons, List.count_append, ihu, ihv]
      by_cases hb : b' = b
      · subst hb
        simp
        omega
      · simp [hb]

/-! ## Parentheses one level deep -/

/-- Parentheses are closed, and have no others inside of them. Nothing is said
of other brackets. -/
inductive Shallow : List Sign → Prop where
  | nil : Shallow []
  | other {x : Sign} {w : List Sign} (hx : x.bracket ≠ .round) (h : Shallow w) :
      Shallow (x :: w)
  | call {v w : List Sign} (hv : ∀ x ∈ v, x.bracket ≠ .round) (h : Shallow w) :
      Shallow (opens .round :: (v ++ closes .round :: w))

theorem Shallow.others {v w : List Sign}
    (hv : ∀ x ∈ v, x.bracket ≠ .round) (h : Shallow w) :
    Shallow (v ++ w) := by
  induction v with
  | nil => exact h
  | cons x v ih =>
      rw [List.forall_mem_cons] at hv
      exact .other hv.1 (ih hv.2)

section

variable {s u t : List Bracket} {v w : List Sign}

/-- A sign that is no parenthesis can be read above an open parenthesis only if
it leaves that alone, and then it is read above anything else in the same
way. -/
theorem nest_other {x : Sign} (hx : x.bracket ≠ .round) (hu : .round ∉ u)
    (h : nest (u ++ .round :: s) (x :: w) = some t) :
    ∃ u', .round ∉ u' ∧ nest (u' ++ .round :: s) w = some t ∧
      ∀ s' w', nest (u ++ s') (x :: w') = nest (u' ++ s') w' := by
  cases x with
  | opens b =>
      refine ⟨b :: u, ?_, by simpa using h, fun s' w' => by simp⟩
      rw [List.mem_cons, not_or]
      exact ⟨Ne.symm hx, hu⟩
  | closes b =>
      cases u with
      | nil =>
          have hb : Bracket.round ≠ b := Ne.symm hx
          rw [List.nil_append, nest_closes, if_neg hb] at h
          cases h
      | cons b' u =>
          rw [List.cons_append, nest_closes] at h
          rw [List.mem_cons, not_or] at hu
          split at h
          · next hb => exact ⟨u, hu.2, h, fun s' w' => by simp [hb]⟩
          · cases h

theorem nest_others (hv : ∀ x ∈ v, x.bracket ≠ .round) (hu : .round ∉ u)
    (h : nest (u ++ .round :: s) (v ++ w) = some t) :
    ∃ u', .round ∉ u' ∧ nest (u' ++ .round :: s) w = some t ∧
      ∀ s' w', nest (u ++ s') (v ++ w') = nest (u' ++ s') w' := by
  induction v generalizing u with
  | nil => exact ⟨u, hu, h, fun s' w' => rfl⟩
  | cons x v ih =>
      rw [List.forall_mem_cons] at hv
      obtain ⟨u₁, hu₁, h₁, hall₁⟩ := nest_other hv.1 hu h
      obtain ⟨u₂, hu₂, h₂, hall₂⟩ := ih hv.2 hu₁ h₁
      exact ⟨u₂, hu₂, h₂, fun s' w' => (hall₁ s' _).trans (hall₂ s' w')⟩

/-- Behind a closing parenthesis, no bracket of another kind can be open above
the opening one. -/
theorem eq_nil_of_nest_closes (hu : .round ∉ u)
    (h : nest (u ++ .round :: s) (closes .round :: w) = some t) : u = [] := by
  cases u with
  | nil => rfl
  | cons b u =>
      rw [List.mem_cons, not_or] at hu
      rw [List.cons_append, nest_closes, if_neg (Ne.symm hu.1)] at h
      cases h

theorem Shallow.nest_append (hv : Shallow v) (hu : .round ∉ u)
    (h : nest (u ++ .round :: s) (v ++ w) = some t) :
    ∃ u', .round ∉ u' ∧ nest (u' ++ .round :: s) w = some t ∧
      ∀ s' w', nest (u ++ s') (v ++ w') = nest (u' ++ s') w' := by
  induction hv generalizing u with
  | nil => exact ⟨u, hu, h, fun s' w' => rfl⟩
  | other hx _ ih =>
      obtain ⟨u₁, hu₁, h₁, hall₁⟩ := nest_other hx hu h
      obtain ⟨u₂, hu₂, h₂, hall₂⟩ := ih hu₁ h₁
      exact ⟨u₂, hu₂, h₂, fun s' w' => (hall₁ s' _).trans (hall₂ s' w')⟩
  | @call v v' hv _ ih =>
      simp only [List.cons_append, List.append_assoc, nest_opens] at h ⊢
      obtain ⟨u₁, hu₁, h₁, hall₁⟩ :=
        nest_others (s := u ++ .round :: s) hv List.not_mem_nil h
      obtain rfl := eq_nil_of_nest_closes hu₁ h₁
      rw [List.nil_append, nest_closes, if_pos rfl] at h₁
      obtain ⟨u₂, hu₂, h₂, hall₂⟩ := ih hu h₁
      refine ⟨u₂, hu₂, h₂, fun s' w' => ?_⟩
      have hinner := hall₁ (.round :: (u ++ s')) (closes .round :: (v' ++ w'))
      rw [List.nil_append, nest_closes, if_pos rfl] at hinner
      rw [hinner, hall₂]

/-- Where parentheses around a shallow word can be read, the word is well
nested by itself. -/
theorem Shallow.enclosed (hv : Shallow v)
    (h : nest s (opens .round :: (v ++ closes .round :: w)) = some t) :
    WellNested v ∧ nest s w = some t := by
  rw [nest_opens] at h
  obtain ⟨u, hu, h', hall⟩ := hv.nest_append (u := []) List.not_mem_nil h
  obtain rfl := eq_nil_of_nest_closes hu h'
  rw [List.nil_append, nest_closes, if_pos rfl] at h'
  have hself := hall [] []
  rw [List.append_nil, List.append_nil, nest_nil] at hself
  exact ⟨wellNested_iff_nest.mpr hself, h'⟩

end

/-! ## Replacing parts -/

/-- Each kind of bracket is opened as often more than it is closed as before,
and brackets that were well nested still are. -/
def KeepsBrackets (document migrated : String) : Prop :=
  (∀ b, balance b migrated.toList = balance b document.toList) ∧
    (WellNested (signs document.toList) → WellNested (signs migrated.toList))

/-- The second word can stand for the first one: it opens as many brackets more
than it closes, and where the first one can be read, so can the second one, and
it leaves the same open. -/
structure Keeps (u v : List Sign) : Prop where
  count : ∀ b, v.count (opens b) + u.count (closes b) =
    u.count (opens b) + v.count (closes b)
  nest : ∀ s t, nest s u = some t → nest s v = some t

namespace Keeps

theorem refl (u : List Sign) : Keeps u u := ⟨fun _ => rfl, fun _ _ h => h⟩

theorem append {u v u' v' : List Sign} (h : Keeps u v) (h' : Keeps u' v') :
    Keeps (u ++ u') (v ++ v') := by
  refine ⟨fun b => ?_, fun s t ht => ?_⟩
  · have hfirst := h.count b
    have hsecond := h'.count b
    simp only [List.count_append]
    omega
  · rw [nest_append] at ht ⊢
    obtain ⟨s', hs', ht⟩ := Option.bind_eq_some_iff.mp ht
    rw [h.nest s s' hs', Option.bind_some, h'.nest s' t ht]

theorem trans {u v w : List Sign} (h : Keeps u v) (h' : Keeps v w) :
    Keeps u w := by
  refine ⟨fun b => ?_, fun s t ht => h'.nest s t (h.nest s t ht)⟩
  have hfirst := h.count b
  have hsecond := h'.count b
  omega

theorem of_wellNested {u v : List Sign} (hu : WellNested u)
    (hv : WellNested v) : Keeps u v := by
  refine ⟨fun b => by rw [hu.count, hv.count, Nat.add_comm], fun s t ht => ?_⟩
  rw [hu.nest] at ht
  rw [hv.nest, ht]

theorem wellNested {u v : List Sign} (h : Keeps u v) (hu : WellNested u) :
    WellNested v :=
  wellNested_iff_nest.mpr (h.nest [] [] (wellNested_iff_nest.mp hu))

theorem balance {u v : List Char}
    (h : Keeps (signs u) (signs v)) (b : Bracket) :
    balance b v = balance b u := by
  have hcount := h.count b
  simp only [count_signs] at hcount
  rw [Codemod.balance, Codemod.balance]
  omega

theorem keepsBrackets {document migrated : String}
    (h : Keeps (signs document.toList) (signs migrated.toList)) :
    KeepsBrackets document migrated :=
  ⟨h.balance, h.wellNested⟩

/-- If every part can stand for the one that was there, so can the whole. -/
theorem weave {us vs gs : List (List Char)}
    (h : List.Forall₂ (fun u v => Keeps (signs u) (signs v)) us vs) :
    Keeps (signs (weave gs us)) (signs (weave gs vs)) := by
  induction h generalizing gs with
  | nil => exact .refl _
  | cons hv _ ih =>
      cases gs with
      | nil => exact .refl _
      | cons g gs =>
          simp only [Codemod.weave, signs_append]
          exact ((refl _).append hv).append ih

end Keeps

end Codemod
