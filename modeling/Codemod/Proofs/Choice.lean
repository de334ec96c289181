import Codemod.Proofs.FormSpell

/-!
# What a match chooses

Which of several matches is preferred is told by the choices on their ways, and
the way of a plan also tells the steps that were taken. `Passes` leaves the
steps out and is about expressions. So it can be asked of an expression in
another form: sequences may be put together in another order, since that takes
no choice away and adds none. `Alike` says that two expressions pass the same
parts with the same choices, and `Regex.row` takes an expression apart into
what stands in a row, so that two forms of one expression become the same
(`alike_of_row`).
-/

namespace Codemod.Pattern

/-- The expression passes the text from one place to another, with these marks,
the earliest first, and these choices. -/
inductive Passes (text : Array Char) :
    Regex → Nat → Nat → Marks → List Bool → Prop where
  | empty (i : Nat) : Passes text .empty i i [] []
  | one {s : CharSet} {c : Char} {i : Nat}
      (hc : text[i]? = some c) (hs : s.has c = true) :
      Passes text (.one s) i (i + 1) [] []
  | look {a : Anchor} {i : Nat} (h : a.holds (before? text i) text[i]? = true) :
      Passes text (.look a) i i [] []
  | group {r : Regex} {i j : Nat} {l : Marks} {c : List Bool}
      (g : Nat) (h : Passes text r i j l c) :
      Passes text (.group g r) i j ((2 * g, i) :: (l ++ [(2 * g + 1, j)])) c
  | seq {r s : Regex} {i j k : Nat} {l l' : Marks} {c c' : List Bool}
      (h : Passes text r i j l c) (h' : Passes text s j k l' c') :
      Passes text (.seq r s) i k (l ++ l') (c ++ c')
  | altLeft {r s : Regex} {i j : Nat} {l : Marks} {c : List Bool}
      (h : Passes text r i j l c) :
      Passes text (.alt r s) i j l (false :: c)
  | altRight {r s : Regex} {i j : Nat} {l : Marks} {c : List Bool}
      (h : Passes text s i j l c) :
      Passes text (.alt r s) i j l (true :: c)
  | stop (r : Regex) (greedy : Bool) (i : Nat) :
      Passes text (.star greedy r) i i [] [greedy]
  | round {r : Regex} {greedy : Bool} {i j k : Nat} {l l' : Marks}
      {c c' : List Bool} (h : Passes text r i j l c)
        (h' : Passes text (.star greedy r) j k l' c') :
      Passes text (.star greedy r) i k (l ++ l') ((!greedy) :: (c ++ c'))
  | plus {r : Regex} {greedy : Bool} {i j k : Nat} {l l' : Marks}
      {c c' : List Bool} (h : Passes text r i j l c)
        (h' : Passes text (.star greedy r) j k l' c') :
      Passes text (.plus greedy r) i k (l ++ l') (c ++ c')

section

variable {text : Array Char} {i j : Nat} {l : Marks} {c : List Bool}

theorem Way.passes {p : Plan} {t : Trail} (h : Way text p i j t) :
    Passes text p.regex i j t.marks t.choices := by
  induction h with
  | empty n i => exact .empty i
  | one n hc hs => exact .one hc hs
  | look n h => exact .look h
  | @group p i j t n g _ ih =>
      have hmarks : (Trail.mark n i (2 * g) ++ t ++
          Trail.mark (n + 1) j (2 * g + 1)).marks =
          (2 * g, i) :: (t.marks ++ [(2 * g + 1, j)]) := by simp [Trail.mark]
      have hchoices : (Trail.mark n i (2 * g) ++ t ++ Trail.mark (n + 1) j
          (2 * g + 1)).choices = t.choices := by simp [Trail.mark]
      rw [hmarks, hchoices]
      exact .group g ih
  | seq n _ _ ih ih' => exact .seq ih ih'
  | altLeft n _ ih => exact .altLeft ih
  | altRight n _ ih => exact .altRight ih
  | stop n i greedy p => exact .stop _ greedy i
  | round _ _ ih ih' => exact .round ih ih'
  | plus _ _ ih ih' => exact .plus ih ih'

theorem Passes.way {r : Regex}
    (h : Passes text r i j l c) {p : Plan} (hp : p.regex = r) :
    ∃ t, Way text p i j t ∧ t.marks = l ∧ t.choices = c := by
  induction h generalizing p with
  | empty i =>
      cases p with
      | empty n => exact ⟨_, .empty n i, rfl, rfl⟩
      | _ => cases hp
  | one hc hs =>
      cases p with
      | one n s =>
          cases hp
          exact ⟨_, .one n hc hs, rfl, rfl⟩
      | _ => cases hp
  | look h =>
      cases p with
      | look n a =>
          cases hp
          exact ⟨_, .look n h, rfl, rfl⟩
      | _ => cases hp
  | group g _ ih =>
      cases p with
      | group n g p =>
          cases hp
          obtain ⟨t, ht, rfl, rfl⟩ := ih rfl
          exact ⟨_, .group n g ht, by simp [Trail.mark], by simp [Trail.mark]⟩
      | _ => cases hp
  | seq _ _ ih ih' =>
      cases p with
      | seq n p q =>
          cases hp
          obtain ⟨t, ht, rfl, rfl⟩ := ih rfl
          obtain ⟨u, hu, rfl, rfl⟩ := ih' rfl
          exact ⟨_, .seq n ht hu, rfl, rfl⟩
      | _ => cases hp
  | altLeft _ ih =>
      cases p with
      | alt n p q =>
          cases hp
          obtain ⟨t, ht, rfl, rfl⟩ := ih rfl
          exact ⟨_, .altLeft n ht, rfl, rfl⟩
      | _ => cases hp
  | altRight _ ih =>
      cases p with
      | alt n p q =>
          cases hp
          obtain ⟨t, ht, rfl, rfl⟩ := ih rfl
          exact ⟨_, .altRight n ht, rfl, rfl⟩
      | _ => cases hp
  | stop r greedy i =>
      cases p with
      | star n greedy p =>
          cases hp
          exact ⟨_, .stop n i greedy p, rfl, rfl⟩
      | _ => cases hp
  | round _ _ ih ih' =>
      cases p with
      | star n greedy p =>
          cases hp
          obtain ⟨t, ht, rfl, rfl⟩ := ih rfl
          obtain ⟨u, hu, rfl, rfl⟩ := ih' (p := .star n _ p) rfl
          exact ⟨_, .round ht hu, rfl, rfl⟩
      | _ => cases hp
  | plus _ _ ih ih' =>
      cases p with
      | plus n greedy p =>
          cases hp
          obtain ⟨t, ht, rfl, rfl⟩ := ih rfl
          obtain ⟨u, hu, rfl, rfl⟩ := ih' (p := .star (n + 1) _ p) rfl
          exact ⟨_, .plus ht hu, rfl, rfl⟩
      | _ => cases hp

theorem Passes.takes {r : Regex}
    (h : Passes text r i j l c) (hi : i ≤ text.size) :
    Takes text r i j l := by
  have hplan : (Plan.ofRegex 0 r).1.regex = r := Plan.regex_ofRegex 0 r
  obtain ⟨t, ht, rfl, -⟩ := h.way hplan
  have htakes := ht.takes hi
  rw [hplan] at htakes
  exact htakes

theorem Takes.passes {r : Regex} (h : Takes text r i j l) :
    ∃ c, Passes text r i j l c := by
  have hplan : (Plan.ofRegex 0 r).1.regex = r := Plan.regex_ofRegex 0 r
  rw [← hplan] at h
  obtain ⟨t, ht, rfl⟩ := h.way
  have hpasses := ht.passes
  rw [hplan] at hpasses
  exact ⟨_, hpasses⟩

theorem Passes.le {r : Regex} (h : Passes text r i j l c) : i ≤ j := by
  induction h <;> omega

end

/-! ## Expressions in another form -/

/-- Two expressions pass the same parts of texts, with the same marks and the
same choices. -/
def Alike (r s : Regex) : Prop :=
  ∀ text i j l c, Passes text r i j l c ↔ Passes text s i j l c

namespace Alike

variable {r r' s s' : Regex}

theorem refl (r : Regex) : Alike r r := fun _ _ _ _ _ => Iff.rfl

theorem symm (h : Alike r s) : Alike s r :=
  fun text i j l c => (h text i j l c).symm

theorem trans {t : Regex} (h : Alike r s) (h' : Alike s t) : Alike r t :=
  fun text i j l c => (h text i j l c).trans (h' text i j l c)

theorem group (h : Alike r r') (g : Nat) :
    Alike (.group g r) (.group g r') := by
  have hone : ∀ {r r' : Regex}, Alike r r' →
      ∀ text i j l c, Passes text (.group g r) i j l c →
      Passes text (.group g r') i j l c := by
    intro r r' h text i j l c hr
    cases hr with
    | group _ hr => exact .group g ((h _ _ _ _ _).mp hr)
  exact fun text i j l c => ⟨hone h text i j l c, hone h.symm text i j l c⟩

theorem seq (h : Alike r r') (h' : Alike s s') :
    Alike (.seq r s) (.seq r' s') := by
  have hone : ∀ {r r' s s' : Regex}, Alike r r' → Alike s s' → ∀ text i j l c,
      Passes text (.seq r s) i j l c → Passes text (.seq r' s') i j l c := by
    intro r r' s s' h h' text i j l c hrs
    cases hrs with
    | seq hr hs => exact .seq ((h _ _ _ _ _).mp hr) ((h' _ _ _ _ _).mp hs)
  exact fun text i j l c =>
    ⟨hone h h' text i j l c, hone h.symm h'.symm text i j l c⟩

theorem alt (h : Alike r r') (h' : Alike s s') :
    Alike (.alt r s) (.alt r' s') := by
  have hone : ∀ {r r' s s' : Regex}, Alike r r' → Alike s s' → ∀ text i j l c,
      Passes text (.alt r s) i j l c → Passes text (.alt r' s') i j l c := by
    intro r r' s s' h h' text i j l c hrs
    cases hrs with
    | altLeft hr => exact .altLeft ((h _ _ _ _ _).mp hr)
    | altRight hs => exact .altRight ((h' _ _ _ _ _).mp hs)
  exact fun text i j l c =>
    ⟨hone h h' text i j l c, hone h.symm h'.symm text i j l c⟩

theorem star (h : Alike r r') (greedy : Bool) :
    Alike (.star greedy r) (.star greedy r') := by
  have hone : ∀ {r r' : Regex}, Alike r r' →
      ∀ {x text i j l c}, Passes text x i j l c →
      x = .star greedy r → Passes text (.star greedy r') i j l c := by
    intro r r' h x text i j l c hx
    induction hx with
    | stop =>
        intro heq
        cases heq
        exact .stop r' greedy _
    | round hr _ _ ih =>
        intro heq
        cases heq
        exact .round ((h _ _ _ _ _).mp hr) (ih rfl)
    | _ => exact fun heq => by cases heq
  exact fun text i j l c =>
    ⟨fun hx => hone h hx rfl, fun hx => hone h.symm hx rfl⟩

theorem plus (h : Alike r r') (greedy : Bool) :
    Alike (.plus greedy r) (.plus greedy r') := by
  have hone : ∀ {r r' : Regex}, Alike r r' →
      ∀ text i j l c, Passes text (.plus greedy r) i j l c →
      Passes text (.plus greedy r') i j l c := by
    intro r r' h text i j l c hr
    cases hr with
    | plus hr hs =>
        exact .plus ((h _ _ _ _ _).mp hr) ((h.star greedy _ _ _ _ _).mp hs)
  exact fun text i j l c => ⟨hone h text i j l c, hone h.symm text i j l c⟩

end Alike

theorem alike_empty_seq (r : Regex) : Alike (.seq .empty r) r := by
  intro text i j l c
  constructor
  · intro h
    cases h with
    | seq h h' =>
        cases h
        exact h'
  · exact fun h => .seq (.empty i) h

theorem alike_seq_empty (r : Regex) : Alike (.seq r .empty) r := by
  intro text i j l c
  constructor
  · intro h
    cases h with
    | seq h h' =>
        cases h'
        rw [List.append_nil, List.append_nil]
        exact h
  · intro h
    have hseq := Passes.seq h (.empty j)
    rw [List.append_nil, List.append_nil] at hseq
    exact hseq

theorem alike_seq_assoc (r s t : Regex) :
    Alike (.seq (.seq r s) t) (.seq r (.seq s t)) := by
  intro text i j l c
  constructor
  · intro h
    cases h with
    | seq h h' =>
        cases h with
        | seq hr hs =>
            rw [List.append_assoc, List.append_assoc]
            exact .seq hr (.seq hs h')
  · intro h
    cases h with
    | seq hr h' =>
        cases h' with
        | seq hs ht =>
            rw [← List.append_assoc, ← List.append_assoc]
            exact .seq (.seq hr hs) ht

open Regex (chain)

theorem alike_chain_append (rs ss : List Regex) :
    Alike (chain (rs ++ ss)) (.seq (chain rs) (chain ss)) := by
  induction rs with
  | nil => exact (alike_empty_seq _).symm
  | cons r rs ih =>
      exact ((Alike.refl r).seq ih).trans (alike_seq_assoc _ _ _).symm

theorem alike_chain_singleton (r : Regex) :
    Alike (chain [r]) r := alike_seq_empty r

/-- What stands in a row in the expression, with its own parts as plain
sequences. -/
def Regex.row : Regex → List Regex
  | .empty => []
  | .one s => [.one s]
  | .look a => [.look a]
  | .group g r => [.group g (chain r.row)]
  | .seq r s => r.row ++ s.row
  | .alt r s => [.alt (chain r.row) (chain s.row)]
  | .star greedy r => [.star greedy (chain r.row)]
  | .plus greedy r => [.plus greedy (chain r.row)]

theorem alike_row (r : Regex) : Alike (chain r.row) r := by
  induction r with
  | empty => exact Alike.refl _
  | one s => exact alike_chain_singleton _
  | look a => exact alike_chain_singleton _
  | group g r ih => exact (alike_chain_singleton _).trans (ih.group g)
  | seq r s ihr ihs => exact (alike_chain_append _ _).trans (ihr.seq ihs)
  | alt r s ihr ihs => exact (alike_chain_singleton _).trans (ihr.alt ihs)
  | star greedy r ih => exact (alike_chain_singleton _).trans (ih.star greedy)
  | plus greedy r ih => exact (alike_chain_singleton _).trans (ih.plus greedy)

/-- Two forms of one expression. -/
theorem alike_of_row {r s : Regex} (h : r.row = s.row) : Alike r s := by
  have hs := alike_row s
  rw [← h] at hs
  exact (alike_row r).symm.trans hs

end Codemod.Pattern
