import Codemod.Proofs.Extent
import Codemod.Proofs.Spacing

/-!
# How deep parentheses are

`level` reads a text and counts the parentheses that are open. Tokens have the
same level however they are laid out, and a subject goes one level deep at most
wherever it is cut (`Flat`).
-/

namespace Codemod.Migration

open Pattern

/-- How many parentheses are open behind a text, if `depth` are open before it;
none if it closes another one. -/
def level (depth : Nat) : List Char → Option Nat
  | [] => some depth
  | c :: w =>
    if c = '(' then level (depth + 1) w
    else if c = ')' then if depth = 0 then none else level (depth - 1) w
    else level depth w

theorem level_open (depth : Nat) (w : List Char) :
    level depth ('(' :: w) = level (depth + 1) w :=
  if_pos rfl

theorem level_close (depth : Nat) (w : List Char) :
    level (depth + 1) (')' :: w) = level depth w := by
  rw [level, if_neg (by decide), if_pos rfl, if_neg (Nat.succ_ne_zero depth),
    Nat.add_sub_cancel]

theorem level_close_zero (w : List Char) : level 0 (')' :: w) = none := by
  rw [level, if_neg (by decide), if_pos rfl, if_pos rfl]

theorem level_other {c : Char} (hopen : c ≠ '(')
    (hclose : c ≠ ')') (depth : Nat) (w : List Char) :
    level depth (c :: w) = level depth w := by
  rw [level, if_neg hopen, if_neg hclose]

theorem level_append (depth : Nat) (u v : List Char) :
    level depth (u ++ v) = (level depth u).bind (level · v) := by
  induction u generalizing depth with
  | nil => rfl
  | cons c u ih =>
      rw [List.cons_append, level, level]
      split
      · exact ih _
      · split
        · split
          · rfl
          · exact ih _
        · exact ih _

/-- Parentheses that are open before a text are open behind it. -/
theorem level_add {depth depth' : Nat} {w : List Char}
    (h : level depth w = some depth') (k : Nat) :
    level (k + depth) w = some (k + depth') := by
  induction w generalizing depth with
  | nil => exact congrArg (Option.map (k + ·)) h
  | cons c w ih =>
      rw [level] at h ⊢
      split at h
      · next hopen =>
          rw [if_pos hopen]
          exact ih h
      · next hopen =>
          rw [if_neg hopen]
          split at h
          · next hclose =>
              split at h
              · cases h
              · next hdepth =>
                  rw [if_pos hclose, if_neg (by omega),
                    show k + depth - 1 = k + (depth - 1) by omega]
                  exact ih h
          · next hclose =>
              rw [if_neg hclose]
              exact ih h

theorem level_plain {w : List Char}
    (hw : ∀ c ∈ w, c ≠ '(' ∧ c ≠ ')') (depth : Nat) :
    level depth w = some depth := by
  induction w with
  | nil => rfl
  | cons c w ih =>
      obtain ⟨hopen, hclose⟩ := hw c List.mem_cons_self
      rw [level_other hopen hclose]
      exact ih fun d hd => hw d (List.mem_cons_of_mem _ hd)

/-- White space between tokens does not matter. -/
theorem level_written {text : Array Char} {ts : List Token} {i j : Nat}
    (h : Written text ts i j) (depth : Nat) :
    level depth (slice text i j) = level depth (ts.flatMap Token.text) := by
  induction h generalizing depth with
  | @last t _ _ ht => rw [ht.text_eq, List.flatMap_singleton]
  | @cons t u ts i p q j ht hpq hwhite hrest ih =>
      have hqj := hrest.bounds.1
      rw [← slice_append ht.le (show p ≤ j by omega), ht.text_eq, ← slice_append
        hpq hqj, List.flatMap_cons, level_append, level_append depth]
      refine congrArg (Option.bind _) (funext fun d => ?_)
      rw [level_append, level_plain fun c hc =>
        Slot.ne_paren_of_isWhite (hwhite c hc)]
      exact ih d

/-! ## Texts with parentheses one level deep -/

/-- The parentheses of the text are closed in it, and they are one level deep
at most. -/
def Flat (w : List Char) : Prop :=
  ∀ u v, w = u ++ v → ∃ depth ≤ 1, level 0 u = some depth ∧
    level depth v = some 0

namespace Flat

variable {u v w : List Char}

theorem level (h : Flat w) : level 0 w = some 0 := by
  obtain ⟨depth, -, hnone, hlevel⟩ := h [] w rfl
  cases hnone
  exact hlevel

theorem plain (hw : ∀ c ∈ w, c ≠ '(' ∧ c ≠ ')') : Flat w := by
  rintro u v rfl
  exact ⟨0, Nat.zero_le 1,
    level_plain (fun c hc => hw c (List.mem_append_left _ hc)) 0,
    level_plain (fun c hc => hw c (List.mem_append_right _ hc)) 0⟩

theorem append (hu : Flat u) (hv : Flat v) : Flat (u ++ v) := by
  intro x y heq
  rcases List.append_eq_append_iff.mp heq with ⟨z, rfl, rfl⟩ | ⟨z, rfl, rfl⟩
  · obtain ⟨depth, hle, hfront, hback⟩ := hv z y rfl
    refine ⟨depth, hle, ?_, hback⟩
    rw [level_append, hu.level]
    exact hfront
  · obtain ⟨depth, hle, hfront, hback⟩ := hu x z rfl
    refine ⟨depth, hle, hfront, ?_⟩
    rw [level_append, hback]
    exact hv.level

theorem call (hw : ∀ c ∈ w, c ≠ '(' ∧ c ≠ ')') :
    Flat ('(' :: (w ++ [')'])) := by
  have hwhole : Migration.level 1 (w ++ [')']) = some 0 := by
    rw [level_append, level_plain hw]
    exact level_close 0 []
  intro u v heq
  cases u with
  | nil =>
      refine ⟨0, Nat.zero_le 1, rfl, ?_⟩
      rw [← List.nil_append v, ← heq, level_open]
      exact hwhole
  | cons c u =>
      obtain ⟨rfl, hrest⟩ := List.cons.inj heq
      rcases List.append_eq_append_iff.mp hrest with ⟨z, rfl, hz⟩
        | ⟨z, rfl, rfl⟩
      · cases z with
        | nil =>
            refine ⟨1, Nat.le_refl 1, ?_, ?_⟩
            · rw [level_open, List.append_nil]
              exact level_plain hw 1
            · rw [← List.nil_append v, ← hz]
              exact level_close 0 []
        | cons d z =>
            obtain ⟨rfl, hnil⟩ := List.cons.inj hz
            obtain ⟨rfl, rfl⟩ := List.append_eq_nil_iff.mp hnil.symm
            exact ⟨0, Nat.zero_le 1, by rw [level_open]; exact hwhole, rfl⟩
      · refine ⟨1, Nat.le_refl 1, ?_, ?_⟩
        · rw [level_open]
          exact level_plain (fun c hc => hw c (List.mem_append_left _ hc)) 1
        · rw [level_append, level_plain fun c hc =>
            hw c (List.mem_append_right _ hc)]
          exact level_close 0 []

end Flat

theorem flat_star {x : Regex} {i : Nat} {b a : Option Char}
    {w : List Char} {l : Marks} (h : Spells x i b w a l)
    (hx : x = .star true (.alt (.one Slot.noParen) Slot.callRegex)) :
    Flat w := by
  induction h with
  | stop => exact .plain (List.forall_mem_nil _)
  | round h _ _ ih =>
      cases hx
      refine .append ?_ (ih rfl)
      rcases spells_alt.mp h with h | h
      · obtain ⟨d, hd, rfl, -⟩ := spells_one.mp h
        refine .plain fun c hc => ?_
        rw [List.mem_singleton.mp hc]
        exact Slot.has_noParen.mp hd
      · obtain ⟨_, _, _, _, hopen, hrest, rfl, -⟩ := spells_seq.mp h
        obtain ⟨inner, _, _, _, hinner, hclose, rfl, -⟩ := spells_seq.mp hrest
        obtain ⟨rfl, -⟩ := spells_text.mp hopen
        obtain ⟨rfl, -⟩ := spells_text.mp hclose
        exact .call fun c hc =>
          Slot.has_noParen.mp ((spells_run.mp hinner).1 c hc)
  | _ => cases hx

theorem flat_subject {i : Nat} {b a : Option Char} {w : List Char} {l : Marks}
    (h : Spells Slot.subjectRegex i b w a l) : Flat w := by
  cases h with
  | plus h h' => exact flat_star (.round h h') rfl

theorem Enclosed.flat {text : Array Char} {a b : Nat} (h : Enclosed text a b) :
    Flat (slice text a b) := by
  obtain ⟨p, k, l, hfront, hsubject, hback⟩ := h
  obtain ⟨hle, -, hwhite, -⟩ := takes_blanks.mp hfront
  obtain ⟨hle', -, hwhite', -⟩ := takes_blanks.mp hback
  have hpk := hsubject.le
  rw [← slice_append hle (show p ≤ b by omega), ← slice_append hpk hle']
  exact .append (.plain fun c hc => Slot.ne_paren_of_isWhite (hwhite c hc))
    (.append (flat_subject hsubject.spells)
      (.plain fun c hc => Slot.ne_paren_of_isWhite (hwhite' c hc)))

end Codemod.Migration
