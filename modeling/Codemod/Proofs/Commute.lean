import Codemod.Proofs.Organizations
import Codemod.Proofs.Overlap
import Codemod.Proofs.Passes
import Mathlib.Data.List.Pairwise

/-!
# Rules that can change places

Two rules give the same in either order when they have nothing to do with each
other: nothing that the one looks for begins in what the other takes or in what
it puts in, and none goes into that. Then one scan over the document tells what
both of them do there (`Both`). It has no order of its own, and whichever rule
goes first finds what the scan says in the document, while the other one finds
the rest in what was left (`Both.turns`, by induction on the scan).

From two rules to a list of them goes an induction on the permutation. The
three rules of the migration between the first and the last one are such a
list.
-/

namespace Codemod

open Pattern

namespace Rule

/-- The second rule is not disturbed by the first one: nothing that the first
one looks for begins in what the second one takes, and what the first one puts
in neither holds nor begins nor ends anything that the second one looks for. -/
structure Spares (r : Rule) (x x' : Regex) : Prop where
  isLocal : r.Local x
  endsPlain : x.outline.endsPlain = true
  apart : endsApart steps [] x.outline x'.outline = true
  makes : ∃ o, r.Makes x o ∧ o.endsPlain = true ∧
    tailsApart steps o x'.outline = true ∧
    endsApart steps [] x'.outline o = true

/-- Both rules at once, from left to right: what they make of a text behind the
character `b`, with so many replacements of each. -/
inductive Both (r r' : Rule) (x x' : Regex) :
    Option Char → List Char → List Char → Nat → Nat → Prop where
  | done {b : Option Char} : Both r r' x x' b [] [] 0 0
  | keep {b : Option Char} {c : Char} {w w' : List Char} {n k : Nat}
      (hno : ∀ u v l, c :: w = u ++ v → ¬ Spells x 0 b u v.head? l)
      (hno' : ∀ u v l, c :: w = u ++ v → ¬ Spells x' 0 b u v.head? l)
      (h : Both r r' x x' (some c) w w' n k) :
      Both r r' x x' b (c :: w) (c :: w') n k
  | first {b : Option Char} {u v v' : List Char} {l : Marks}
      {s : String} {n k : Nat} (hu : Spells x 0 b u v.head? l)
      (hs : r.produce (r.hit (String.ofList u) (.whole u l)) = .ok s)
      (h : Both r r' x x' (u.getLast?.or b) v v' n k) :
      Both r r' x x' b (u ++ v) (s.toList ++ v') (n + 1) k
  | second {b : Option Char} {u v v' : List Char} {l : Marks}
      {s : String} {n k : Nat} (hu : Spells x' 0 b u v.head? l)
      (hs : r'.produce (r'.hit (String.ofList u) (.whole u l)) = .ok s)
      (h : Both r r' x x' (u.getLast?.or b) v v' n k) :
      Both r r' x x' b (u ++ v) (s.toList ++ v') n (k + 1)

variable {r r' : Rule} {x x' : Regex} {b : Option Char}
  {w w' : List Char} {n k : Nat}

theorem Both.swap (h : Both r r' x x' b w w' n k) :
    Both r' r x' x b w w' k n := by
  induction h with
  | done => exact .done
  | keep hno hno' _ ih => exact .keep hno' hno ih
  | first hu hs _ ih => exact .second hu hs ih
  | second hu hs _ ih => exact .first hu hs ih

/-- There is such a scan: where something of either rule begins it goes on
behind that. -/
theorem exists_both (hx : r.Spares x x') (hx' : r'.Spares x' x)
    (b : Option Char) (w : List Char) :
    ∃ w' n k, Both r r' x x' b w w' n k := by
  obtain ⟨o, hmakes, -⟩ := hx.makes
  obtain ⟨o', hmakes', -⟩ := hx'.makes
  induction hlen : w.length using Nat.strong_induction_on generalizing b w with
  | h d ih =>
      have hnext : ∀ {q : Regex} {b : Option Char}
          {u v : List Char} {a : Option Char} {l : Marks},
          q.closed = true → Spells q 0 b u a l → (u ++ v).length = d →
          ∀ b', ∃ w' n k, Both r r' x x' b' v w' n k := by
        intro q b u v a l hclosed hu hd b'
        have hpos := List.length_pos_iff.mpr (hu.closed hclosed none).1
        rw [List.length_append] at hd
        exact ih v.length (by omega) b' v rfl
      by_cases hone : ∃ u v l, w = u ++ v ∧ Spells x 0 b u v.head? l
      · obtain ⟨u, v, l, rfl, hu⟩ := hone
        obtain ⟨s, hs, -⟩ := hmakes hu
        obtain ⟨w', n, k, h⟩ :=
          hnext hx.isLocal.closed hu hlen (u.getLast?.or b)
        exact ⟨_, _, _, .first hu hs h⟩
      by_cases htwo : ∃ u v l, w = u ++ v ∧ Spells x' 0 b u v.head? l
      · obtain ⟨u, v, l, rfl, hu⟩ := htwo
        obtain ⟨s, hs, -⟩ := hmakes' hu
        obtain ⟨w', n, k, h⟩ :=
          hnext hx'.isLocal.closed hu hlen (u.getLast?.or b)
        exact ⟨_, _, _, .second hu hs h⟩
      cases w with
      | nil => exact ⟨[], 0, 0, .done⟩
      | cons c w =>
          obtain ⟨w', n, k, h⟩ := ih w.length
            (by rw [← hlen]; exact Nat.lt_succ_self _) (some c) w rfl
          exact ⟨_, _, _, .keep (fun u v l heq hu => hone ⟨u, v, l, heq, hu⟩)
            (fun u v l heq hu => htwo ⟨u, v, l, heq, hu⟩) h⟩

/-- The first rule does its part of the scan, and the second one the rest. -/
theorem Both.turns (h : Both r r' x x' b w w' n k)
    (hx : r.Spares x x') (hx' : r'.Spares x' x) :
    ∃ v, Turns r x b w v n ∧ Turns r' x' b v w' k := by
  obtain ⟨o, hmakes, hends, hinto, hwithin⟩ := hx.makes
  induction h with
  | done => exact ⟨[], .done, .done⟩
  | @keep b c w w' n k hno hno' _ ih =>
      obtain ⟨v, hv, hw⟩ := ih
      refine ⟨c :: v, .keep hno hv, .keep (fun u s l heq hu => ?_) hw⟩
      obtain ⟨s', hs'⟩ :=
        spells_of_turned hmakes hinto hv (p := [c]) (by simp) heq hu
      exact hno' u s' l hs' (hu.closed hx'.isLocal.closed _).2
  | @first b u v v' l s n k hu hs _ ih =>
      obtain ⟨t, ht, hw⟩ := ih
      obtain ⟨s', hs', hfits⟩ := hmakes hu
      obtain rfl := Except.ok.inj (hs'.symm.trans hs)
      refine ⟨s'.toList ++ t, .swap hu hs ht, ?_⟩
      exact hx'.isLocal.turns_over hwithin hends hfits
        (hu.fits.lastPlain hx.endsPlain b) hw
  | @second b u v v' l s n k hu hs _ ih =>
      obtain ⟨t, ht, hw⟩ := ih
      refine ⟨u ++ t, ?_, .swap (hu.closed hx'.isLocal.closed _).2 hs hw⟩
      exact hx.isLocal.turns_over hx.apart hx'.endsPlain hu.fits
        (hu.fits.lastPlain hx'.endsPlain b) ht

/-- The rules can be applied in either order: the text is the same in the end,
and each of them makes as many replacements before the other one as behind
it. -/
def Commutes (r r' : Rule) : Prop :=
  ∀ document, ∃ first second both n k,
    r.apply document = .ok ⟨first, n⟩ ∧ r'.apply first = .ok ⟨both, k⟩ ∧
    r'.apply document = .ok ⟨second, k⟩ ∧ r.apply second = .ok ⟨both, n⟩

theorem Commutes.symm (h : Commutes r r') : Commutes r' r := by
  intro document
  obtain ⟨first, second, both, n, k, hfirst, hboth, hsecond, hboth'⟩ :=
    h document
  exact ⟨second, first, both, k, n, hsecond, hboth', hfirst, hboth⟩

theorem commute_of_spares (hx : r.Spares x x') (hx' : r'.Spares x' x) :
    Commutes r r' := by
  intro document
  obtain ⟨w, n, k, h⟩ := exists_both hx hx' none document.toList
  obtain ⟨v, hv, hw⟩ := h.turns hx hx'
  obtain ⟨v', hv', hw'⟩ := h.swap.turns hx' hx
  refine ⟨String.ofList v, String.ofList v', String.ofList w, n,
    k, hx.isLocal.apply_iff.mpr ?_, hx'.isLocal.apply_iff.mpr ?_,
    hx'.isLocal.apply_iff.mpr ?_, hx.isLocal.apply_iff.mpr ?_⟩ <;>
  simpa only [String.toList_ofList]

end Rule

/-- Rules of which any two can be applied in either order can be applied in all
orders. -/
theorem Rules.Edits.perm {rs rs' : Rules} (hperm : rs.Perm rs')
    {document migrated : String} {edits : List Edit} {count : Rule → Nat}
    (hcommute : rs.Pairwise Rule.Commutes)
    (h : Edits rs document edits migrated)
    (hcount : edits.map Edit.replacements = rs.map count) :
    ∃ edits', Edits rs' document edits' migrated ∧
      edits'.map Edit.replacements = rs'.map count := by
  induction hperm generalizing document edits with
  | nil => exact ⟨edits, h, hcount⟩
  | cons r _ ih =>
      rw [List.pairwise_cons] at hcommute
      cases h with
      | @cons _ _ _ _ edit edits happly h =>
          rw [List.map_cons, List.map_cons, List.cons.injEq] at hcount
          obtain ⟨edits', h', hcount'⟩ := ih hcommute.2 h hcount.2
          refine ⟨edit :: edits', .cons happly h', ?_⟩
          rw [List.map_cons, List.map_cons, hcount.1, hcount']
  | swap r r' rs =>
      simp only [List.pairwise_cons, List.forall_mem_cons] at hcommute
      cases h with
      | cons happly h =>
      cases h with
      | cons happly' h =>
          obtain ⟨first, second, both, n, k, hfirst, hboth, hsecond, hboth'⟩ :=
            hcommute.1.1 document
          cases happly.symm.trans hfirst
          cases happly'.symm.trans hboth
          simp only [List.map_cons, List.cons.injEq] at hcount
          refine ⟨_, .cons hsecond (.cons hboth' h), ?_⟩
          simp only [List.map_cons, List.cons.injEq]
          exact ⟨hcount.2.1, hcount.1, hcount.2.2⟩
  | trans hperm _ ih ih' =>
      obtain ⟨edits', h', hcount'⟩ := ih hcommute h hcount
      exact ih' ((hperm.pairwise_iff fun h => h.symm).mp hcommute) h' hcount'

namespace Migration

/-- Nothing of the first shape begins in what is written in the second one. -/
def apart (s q : Shape) : Bool :=
  endsApart steps [] (meaning s).outline (meaning q).outline

theorem Careful.spares {r : Rule} {s q : Shape} {t : Template}
    {names : List String} {qs : List Shape} (h : Careful r s t names qs)
    (hlocal : r.Local (meaning s)) (hapart : apart s q = true)
    (hkeeps : t.keepsOut (meaning s) names (meaning q).outline = true) :
    r.Spares (meaning s) (meaning q) := by
  rw [Template.keepsOut] at hkeeps
  split at hkeeps
  · next o ho =>
      rw [Bool.and_eq_true, Bool.and_eq_true] at hkeeps
      exact ⟨hlocal, (tidy_iff.mp h.tidy).2, hapart, o, hlocal.makes_outline
        h.produce h.names ho, hkeeps.1.1, hkeeps.1.2, hkeeps.2⟩
  · cases hkeeps

theorem shapes_apart :
    (apart Old.twoImports Old.oneUser = true ∧
      apart Old.oneUser Old.twoImports = true) ∧
    (apart Old.twoImports Old.twoUsers = true ∧
      apart Old.twoUsers Old.twoImports = true) ∧
    apart Old.oneUser Old.twoUsers = true ∧
    apart Old.twoUsers Old.oneUser = true := by
  decide +kernel

/-- Rules keep out what the rules before them look for. These keep out what
later ones look for. -/
theorem keepsOut_checked :
    keepsAllOut Old.twoImports New.twoImports []
      [Old.oneUser, Old.twoUsers] = true ∧
    keepsAllOut Old.oneUser New.oneUser ["binding", "user"]
      [Old.twoUsers] = true := by
  decide +kernel

/-- Any two of the three rules between the first and the last one can be
applied in either order. -/
theorem Ruleset.pairwise_commutes {r₁ r₂ r₃ r₄ r₅ : Rule}
    (h : Ruleset r₁ r₂ r₃ r₄ r₅) :
    [r₂, r₃, r₄].Pairwise Rule.Commutes := by
  obtain ⟨⟨h₂₃, h₃₂⟩, ⟨h₂₄, h₄₂⟩, h₃₄, h₄₃⟩ := shapes_apart
  obtain ⟨hkeeps₂, hkeeps₃⟩ := keepsOut_checked
  have hkeeps₃' := h.oneUser.keeps
  have hkeeps₄ := h.twoUsers.keeps
  simp only [keepsAllOut, List.all_cons, List.all_nil, Bool.and_true,
    Bool.and_eq_true] at hkeeps₂ hkeeps₃ hkeeps₃' hkeeps₄
  obtain ⟨hone, htwo⟩ := organizations_placeable
  simp only [placeable, Bool.and_eq_true] at hone htwo
  have hlocal₂ := h.twoImports.isLocal imports_checked.2.1 (by decide)
  have hlocal₃ := h.oneUser.isLocal hone.1.1.1.1 (by decide)
  have hlocal₄ := h.twoUsers.isLocal htwo.1.1.1.1 (by decide)
  have hcommute₂₃ : Rule.Commutes r₂ r₃ :=
    Rule.commute_of_spares (h.twoImports.spares hlocal₂ h₂₃ hkeeps₂.1)
      (h.oneUser.spares hlocal₃ h₃₂ hkeeps₃'.1)
  have hcommute₂₄ : Rule.Commutes r₂ r₄ :=
    Rule.commute_of_spares (h.twoImports.spares hlocal₂ h₂₄ hkeeps₂.2)
      (h.twoUsers.spares hlocal₄ h₄₂ hkeeps₄.1)
  have hcommute₃₄ : Rule.Commutes r₃ r₄ :=
    Rule.commute_of_spares (h.oneUser.spares hlocal₃ h₃₄ hkeeps₃)
      (h.twoUsers.spares hlocal₄ h₄₃ hkeeps₄.2.1)
  simp [hcommute₂₃, hcommute₂₄, hcommute₃₄]

/-- The three rules between the first and the last one can be applied in any
order: for every document the text in the end is the same, and so is the number
of replacements that each of them makes. -/
theorem middle_rules_commute : ∃ rules, Migration.rules = .ok rules ∧
    rules.map Rule.name = ["consolidate-imports",
      "consolidate-imports-fallback", "single-user-organization",
      "multi-user-organization", "aria-label-or-visible"] ∧
    ∀ document : String, ∃ (text : String) (count : String → Nat),
      ∀ order : Rules, order.Perm ((rules.drop 1).take 3) → ∃ edits,
        Rules.Edits order document edits text ∧
        edits.map Edit.replacements = order.map fun r => count r.name := by
  obtain ⟨r₁, r₂, r₃, r₄, r₅, hrules, hnames, hset⟩ := rules_eq_ok
  refine ⟨_, hrules, hnames, fun document => ?_⟩
  simp only [List.map_cons, List.map_nil, List.cons.injEq] at hnames
  obtain ⟨-, hname₂, hname₃, hname₄, -⟩ := hnames
  obtain ⟨e₂, h₂⟩ := hset.apply_eq_ok r₂ (by simp) document
  obtain ⟨e₃, h₃⟩ := hset.apply_eq_ok r₃ (by simp) e₂.text
  obtain ⟨e₄, h₄⟩ := hset.apply_eq_ok r₄ (by simp) e₃.text
  have hedits : Rules.Edits [r₂, r₃, r₄] document [e₂, e₃, e₄] e₄.text :=
    .cons h₂ (.cons h₃ (.cons h₄ .nil))
  let count (name : String) : Nat :=
    if name = "consolidate-imports-fallback" then e₂.replacements
    else if name = "single-user-organization" then e₃.replacements
      else e₄.replacements
  have hcount : [e₂, e₃, e₄].map Edit.replacements = [r₂, r₃, r₄].map fun r =>
      count r.name := by
    simp [count, hname₂, hname₃, hname₄]
  exact ⟨e₄.text, count, fun order horder =>
    hedits.perm horder.symm hset.pairwise_commutes hcount⟩

/-- The reversed order, for two imports. -/
theorem middle_rules_commute_reversed : ∃ (rules : Rules) (text : String)
    (count : String → Nat) (edits : List Edit), Migration.rules = .ok rules ∧
    ((rules.drop 1).take 3).reverse.Perm ((rules.drop 1).take 3) ∧
    Rules.Edits ((rules.drop 1).take 3).reverse
      (Code.faker ++ "\n" ++ Code.prisma) edits text ∧
    edits.map Edit.replacements = ((rules.drop 1).take 3).reverse.map fun r =>
      count r.name := by
  obtain ⟨rules, hrules, -, h⟩ := middle_rules_commute
  obtain ⟨text, count, horders⟩ := h (Code.faker ++ "\n" ++ Code.prisma)
  obtain ⟨edits, hedits, hcount⟩ := horders _ (List.reverse_perm _)
  exact ⟨rules, text, count, edits, hrules, List.reverse_perm _, hedits, hcount⟩

end Migration

end Codemod
