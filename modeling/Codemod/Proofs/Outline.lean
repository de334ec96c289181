import Codemod.Proofs.Spell

/-!
# Outlines

Whether a text that was put into a document can become part of a new match is
decided by comparing what it looks like with what the pattern looks like. Both
are known only in outline: fixed characters, and runs of characters of some
kind between them. `Regex.outline` gives the outline of an expression, which
forgets its groups and anchors, and `meets` runs two outlines against each
other. If it says no, no text of one is the beginning of a text of the other,
and `ends_apart` says the same of everything that one of them can end with.

The answer no is computed, so it holds by evaluation for the patterns at hand.
-/

namespace Codemod.Pattern

/-- The character lies in one of the ranges. -/
def Covers (rs : Text.Ranges) (c : Char) : Prop :=
  ∃ r ∈ rs, r.1 ≤ c.toNat ∧ c.toNat ≤ r.2

theorem covers_of_has {rs : Text.Ranges} {c : Char}
    (h : rs.has c.toNat = true) : Covers rs c := by
  induction rs with
  | nil => cases h
  | cons r rs ih =>
      simp only [Text.Ranges.has, Bool.and_eq_true, Bool.or_eq_true,
        decide_eq_true_eq] at h
      rcases h with ⟨hlo, hhi | hrest⟩
      · exact ⟨r, List.mem_cons_self, hlo, hhi⟩
      · obtain ⟨r', hr', hc⟩ := ih hrest
        exact ⟨r', List.mem_cons_of_mem _ hr', hc⟩

theorem Covers.append_left {rs : Text.Ranges} {c : Char}
    (h : Covers rs c) (ss : Text.Ranges) :
    Covers (rs ++ ss) c := by
  obtain ⟨r, hr, hc⟩ := h
  exact ⟨r, List.mem_append_left _ hr, hc⟩

theorem Covers.append_right {ss : Text.Ranges} {c : Char}
    (h : Covers ss c) (rs : Text.Ranges) :
    Covers (rs ++ ss) c := by
  obtain ⟨r, hr, hc⟩ := h
  exact ⟨r, List.mem_append_right _ hr, hc⟩

/-- A part of an outline: one character that lies in some ranges, or any number
of them. -/
inductive Stroke where
  | one (rs : Text.Ranges)
  | run (rs : Text.Ranges)

/-- What a text looks like, from left to right. -/
abbrev Outline := List Stroke

/-- The text has the outline. -/
inductive Fits : Outline → List Char → Prop where
  | nil : Fits [] []
  | one {rs : Text.Ranges} {o : Outline} {c : Char} {w : List Char}
      (hc : Covers rs c) (h : Fits o w) : Fits (.one rs :: o) (c :: w)
  | skip {rs : Text.Ranges} {o : Outline} {w : List Char} (h : Fits o w) :
      Fits (.run rs :: o) w
  | more {rs : Text.Ranges} {o : Outline} {c : Char} {w : List Char}
      (hc : Covers rs c)
      (h : Fits (.run rs :: o) w) : Fits (.run rs :: o) (c :: w)

theorem Fits.append {o p : Outline} {u v : List Char}
    (h : Fits o u) (h' : Fits p v) :
    Fits (o ++ p) (u ++ v) := by
  induction h with
  | nil => exact h'
  | one hc _ ih => exact .one hc ih
  | skip _ ih => exact .skip ih
  | more hc _ ih => exact .more hc ih

theorem fits_run {rs : Text.Ranges} {w : List Char} (h : ∀ c ∈ w, Covers rs c) :
    Fits [.run rs] w := by
  induction w with
  | nil => exact .skip .nil
  | cons c w ih =>
      exact .more (h c List.mem_cons_self)
        (ih fun d hd => h d (List.mem_cons_of_mem _ hd))

/-- The outline of a fixed text. -/
def Outline.ofText (cs : List Char) : Outline :=
  cs.map fun c => .one [(c.toNat, c.toNat)]

theorem fits_ofText (cs : List Char) : Fits (.ofText cs) cs := by
  induction cs with
  | nil => exact .nil
  | cons c cs ih =>
      exact .one ⟨_, List.mem_cons_self, Nat.le_refl _, Nat.le_refl _⟩ ih

theorem Fits.run_inv {rs : Text.Ranges} {o : Outline} {w : List Char}
    (h : Fits (.run rs :: o) w) :
    ∃ u v, w = u ++ v ∧ (∀ c ∈ u, Covers rs c) ∧ Fits o v := by
  induction w with
  | nil =>
      cases h with
      | skip h => exact ⟨[], [], rfl, fun c hc => absurd hc List.not_mem_nil, h⟩
  | cons c w ih =>
      cases h with
      | skip h =>
          exact ⟨[], c :: w, rfl, fun c hc => absurd hc List.not_mem_nil, h⟩
      | more hc h =>
          obtain ⟨u, v, rfl, hu, hv⟩ := ih h
          refine ⟨c :: u, v, rfl, fun d hd => ?_, hv⟩
          rcases List.mem_cons.mp hd with rfl | hd
          · exact hc
          · exact hu d hd

/-- The ranges in which the last character lies, behind a text whose last
character lies in `acc`; none if there may be no character. -/
def Outline.lasts (acc : Option Text.Ranges) : Outline → Option Text.Ranges
  | [] => acc
  | .one rs :: o => lasts (some rs) o
  | .run rs :: o => lasts (acc.map (· ++ rs)) o

theorem Fits.getLast? {o : Outline} {w : List Char}
    (h : Fits o w) {acc : Option Text.Ranges} {p : List Char}
    (hp : ∀ rs, acc = some rs → ∃ c, p.getLast? = some c ∧ Covers rs c)
    {rs : Text.Ranges} (hrs : o.lasts acc = some rs) :
    ∃ c, (p ++ w).getLast? = some c ∧ Covers rs c := by
  induction o generalizing acc p w with
  | nil =>
      cases h
      rw [List.append_nil]
      exact hp rs hrs
  | cons x o ih =>
      cases x with
      | one ss =>
          cases h with
          | @one _ _ c w hc h =>
              rw [List.append_cons]
              refine ih h ?_ hrs
              rintro rs' heq
              cases heq
              exact ⟨c, List.getLast?_concat, hc⟩
      | run ss =>
          obtain ⟨u, v, rfl, hu, hv⟩ := h.run_inv
          rw [← List.append_assoc]
          refine ih hv ?_ hrs
          intro rs' heq
          obtain ⟨ts, rfl, rfl⟩ := Option.map_eq_some_iff.mp heq
          obtain ⟨c, hc, hcov⟩ := hp ts rfl
          cases hl : u.getLast? with
          | none =>
              refine ⟨c, ?_, hcov.append_left _⟩
              rw [List.getLast?_append, hl, Option.none_or]
              exact hc
          | some d =>
              refine ⟨d, ?_,
                (hu d (List.mem_of_mem_getLast? hl)).append_right _⟩
              rw [List.getLast?_append, hl, Option.some_or]

/-! ## The outline of an expression -/

/-- The characters that an expression looks for, somewhere. -/
def Regex.ranges : Regex → Text.Ranges
  | .empty | .look _ => []
  | .one s => s.ranges
  | .group _ r | .star _ r | .plus _ r => r.ranges
  | .seq r s | .alt r s => r.ranges ++ s.ranges

/-- The outline of an expression. What is repeated is a run, and so is an
alternative. -/
def Regex.outline : Regex → Outline
  | .empty | .look _ => []
  | .one s => [.one s.ranges]
  | .group _ r => r.outline
  | .seq r s => r.outline ++ s.outline
  | .alt r s => [.run (r.ranges ++ s.ranges)]
  | .star _ r => [.run r.ranges]
  | .plus _ r => r.outline ++ [.run r.ranges]

variable {r : Regex} {i : Nat} {b a : Option Char} {w : List Char} {ms : Marks}

theorem Spells.covers (h : Spells r i b w a ms) :
    ∀ c ∈ w, Covers r.ranges c := by
  induction h with
  | empty | look | stop => exact fun c hc => absurd hc List.not_mem_nil
  | one hs =>
      intro c hc
      rw [List.mem_singleton.mp hc]
      exact covers_of_has hs
  | group _ _ ih => exact ih
  | seq _ _ ih ih' =>
      intro c hc
      rcases List.mem_append.mp hc with hc | hc
      · exact (ih c hc).append_left _
      · exact (ih' c hc).append_right _
  | altLeft _ ih => exact fun c hc => (ih c hc).append_left _
  | altRight _ ih => exact fun c hc => (ih c hc).append_right _
  | round _ _ ih ih' | plus _ _ ih ih' =>
      intro c hc
      rcases List.mem_append.mp hc with hc | hc
      · exact ih c hc
      · exact ih' c hc

/-- What an expression spells has its outline. -/
theorem Spells.fits (h : Spells r i b w a ms) : Fits r.outline w := by
  induction h with
  | empty | look => exact .nil
  | one hs => exact .one (covers_of_has hs) .nil
  | group _ _ ih => exact ih
  | seq _ _ ih ih' => exact ih.append ih'
  | altLeft h _ => exact fits_run (Spells.altLeft h).covers
  | altRight h _ => exact fits_run (Spells.altRight h).covers
  | stop => exact .skip .nil
  | round h h' _ _ => exact fits_run (Spells.round h h').covers
  | plus _ h' ih _ => exact ih.append (fits_run h'.covers)

/-! ## Two outlines, one against the other -/

/-- Some character may lie in both. -/
def overlap (rs ss : Text.Ranges) : Bool :=
  rs.any fun r => ss.any fun s => r.1 ≤ s.2 && s.1 ≤ r.2

theorem overlap_of_covers {rs ss : Text.Ranges} {c : Char}
    (h : Covers rs c) (h' : Covers ss c) :
    overlap rs ss = true := by
  obtain ⟨r, hr, hc⟩ := h
  obtain ⟨s, hs, hc'⟩ := h'
  rw [overlap, List.any_eq_true]
  refine ⟨r, hr, List.any_eq_true.mpr ⟨s, hs, ?_⟩⟩
  simp only [Bool.and_eq_true, decide_eq_true_eq]
  omega

/-- Every text of the outline ends with a character, and not with a word
character. -/
def Outline.endsPlain (o : Outline) : Bool :=
  (o.lasts none).any fun rs => !overlap rs Text.word

theorem Fits.endsPlain {o : Outline} {w : List Char}
    (h : Fits o w) (ho : o.endsPlain = true) :
    w ≠ [] ∧ Anchor.isWord? w.getLast? = false := by
  rw [Outline.endsPlain, Option.any_eq_true] at ho
  obtain ⟨rs, hrs, hword⟩ := ho
  have hlast : ∃ c, ([] ++ w).getLast? = some c ∧ Covers rs c :=
    h.getLast? (fun _ heq => by cases heq) hrs
  obtain ⟨c, hc, hcov⟩ := hlast
  rw [List.nil_append] at hc
  refine ⟨?_, ?_⟩
  · rintro rfl
    cases hc
  · rw [hc]
    show Text.isWord c = false
    cases hw : Text.isWord c with
    | false => rfl
    | true =>
        rw [overlap_of_covers hcov (covers_of_has hw)] at hword
        cases hword

/-- What comes behind such a text does not stand behind a word character. -/
theorem Fits.lastPlain {o : Outline} {w : List Char}
    (h : Fits o w) (ho : o.endsPlain = true)
    (b : Option Char) : Anchor.isWord? (w.getLast?.or b) = false := by
  obtain ⟨hne, hword⟩ := h.endsPlain ho
  obtain ⟨c, hc⟩ := Option.isSome_iff_exists.mp (List.getLast?_isSome.mpr hne)
  rw [hc] at hword ⊢
  exact hword

/-- A text of one outline may begin with a text of the other. The answer is yes
if the comparison does not end within the given number of steps. -/
def meets : Nat → Outline → Outline → Bool
  | 0, _, _ => true
  | _ + 1, [], _ => true
  | _ + 1, _ :: _, [] => true
  | n + 1, .one rs :: o, .one ss :: p => overlap rs ss && meets n o p
  | n + 1, .one rs :: o, .run ss :: p =>
    (overlap rs ss && meets n o (.run ss :: p)) || meets n (.one rs :: o) p
  | n + 1, .run rs :: o, .one ss :: p =>
    (overlap rs ss && meets n (.run rs :: o) p) || meets n o (.one ss :: p)
  | n + 1, .run rs :: o, .run ss :: p =>
      meets n o (.run ss :: p) || meets n (.run rs :: o) p

/-- Texts of two outlines that do not meet are not the same text with something
behind it. -/
theorem apart_of_meets {n : Nat} {o p : Outline}
    (h : meets n o p = false) {u v s t : List Char}
    (hu : Fits o u) (hv : Fits p v) (heq : u ++ s = v ++ t) : False := by
  induction n generalizing o p u v with
  | zero => cases h
  | succ n ih =>
      match o, p, h with
      | .one rs :: o, .one ss :: p, h =>
          cases hu with
          | one hc hu =>
              cases hv with
              | one hd hv =>
                  obtain ⟨rfl, hrest⟩ := List.cons.inj heq
                  rw [meets, overlap_of_covers hc hd, Bool.true_and] at h
                  exact ih h hu hv hrest
      | .one rs :: o, .run ss :: p, h =>
          rw [meets, Bool.or_eq_false_iff] at h
          cases hv with
          | skip hv => exact ih h.2 hu hv heq
          | more hd hv =>
              cases hu with
              | one hc hu =>
                  obtain ⟨rfl, hrest⟩ := List.cons.inj heq
                  rw [overlap_of_covers hc hd, Bool.true_and] at h
                  exact ih h.1 hu hv hrest
      | .run rs :: o, .one ss :: p, h =>
          rw [meets, Bool.or_eq_false_iff] at h
          cases hu with
          | skip hu => exact ih h.2 hu hv heq
          | more hc hu =>
              cases hv with
              | one hd hv =>
                  obtain ⟨rfl, hrest⟩ := List.cons.inj heq
                  rw [overlap_of_covers hc hd, Bool.true_and] at h
                  exact ih h.1 hu hv hrest
      | .run rs :: o, .run ss :: p, h =>
          rw [meets, Bool.or_eq_false_iff] at h
          induction u generalizing v with
          | nil =>
              cases hu with
              | skip hu => exact ih h.1 hu hv heq
          | cons c u ihu =>
              cases hu with
              | skip hu => exact ih h.1 hu hv heq
              | more hc hu =>
                  cases hv with
                  | skip hv => exact ih h.2 (.more hc hu) hv heq
                  | more hd hv =>
                      obtain ⟨rfl, hrest⟩ := List.cons.inj heq
                      exact ihu hrest hu hv

/-- No end of a text of `o`, followed by a text of `l`, begins with a text of
`p` or the other way round. -/
def endsApart (n : Nat) (l p : Outline) : Outline → Bool
  | [] => true
  | x :: o => !meets n (x :: (o ++ l)) p && endsApart n l p o

theorem ends_apart {n : Nat} {o l p : Outline} (h : endsApart n l p o = true)
    {u v y z s t : List Char} (hv : v ≠ []) (ho : Fits o (u ++ v))
    (hl : Fits l z) (hp : Fits p y) (heq : v ++ (z ++ s) = y ++ t) : False := by
  have hstart : ∀ {x : Stroke} {o : Outline}, endsApart n l p (x :: o) = true →
      Fits (x :: o) v → False := by
    intro x o h hfits
    rw [endsApart, Bool.and_eq_true, Bool.not_eq_true'] at h
    have hboth : Fits (x :: (o ++ l)) (v ++ z) := hfits.append hl
    exact apart_of_meets h.1 hboth hp (by rw [List.append_assoc]; exact heq)
  generalize hw : u ++ v = w at ho
  induction ho generalizing u with
  | nil => exact hv (List.append_eq_nil_iff.mp hw).2
  | one hc ho ih =>
      cases u with
      | nil =>
          exact hstart h
            (by rw [List.nil_append] at hw; rw [hw]; exact .one hc ho)
      | cons c' u =>
          rw [endsApart, Bool.and_eq_true] at h
          exact ih h.2 (List.cons.inj hw).2
  | skip _ ih =>
      rw [endsApart, Bool.and_eq_true] at h
      exact ih h.2 hw
  | more hc ho ih =>
      cases u with
      | nil =>
          exact hstart h
            (by rw [List.nil_append] at hw; rw [hw]; exact .more hc ho)
      | cons c' u => exact ih h (List.cons.inj hw).2

end Codemod.Pattern
