import Codemod.Proofs.FormSpell
import Codemod.Proofs.Outline
import Codemod.Proofs.Seam

/-!
# What a match has captured

A match knows its groups only by marks that were made on the way. For a group
that stands in a row with what is around it, as the slots of a shape do, every
match has marks for it, and what stands between them is what the body of the
group spells. `Regex.part?` takes an expression apart at such a group, and
`Takes.part` takes a match apart in the same way.
-/

namespace Codemod.Pattern

/-- The expression has the group somewhere. -/
def Regex.mentions (g : Nat) : Regex → Bool
  | .empty | .one _ | .look _ => false
  | .group h r => h == g || r.mentions g
  | .seq r s | .alt r s => r.mentions g || s.mentions g
  | .star _ r | .plus _ r => r.mentions g

/-- The marks `2 * g` and `2 * g + 1` are made by group `g` and by no other
one. -/
theorem Spells.marks_of_not_mentions {r : Regex}
    {i g : Nat} {b a : Option Char} {w : List Char}
    {ms : Marks} (h : Spells r i b w a ms) (hr : r.mentions g = false) :
    ∀ x ∈ ms, x.1 / 2 ≠ g := by
  have happend : ∀ {ms ns : Marks}, (∀ x ∈ ms, x.1 / 2 ≠ g) →
      (∀ x ∈ ns, x.1 / 2 ≠ g) → ∀ x ∈ ms ++ ns, x.1 / 2 ≠ g := by
    intro ms ns h h' x hx
    exact (List.mem_append.mp hx).elim (h x) (h' x)
  induction h with
  | empty | one | look | stop => exact fun x hx => absurd hx List.not_mem_nil
  | @group _ _ _ _ w _ h _ ih =>
      rw [Regex.mentions, Bool.or_eq_false_iff, beq_eq_false_iff_ne] at hr
      intro x hx
      rcases List.mem_cons.mp hx with rfl | hx
      · show 2 * h / 2 ≠ g
        omega
      · refine happend (ih hr.2) ?_ x hx
        intro y hy
        rw [List.mem_singleton.mp hy]
        show (2 * h + 1) / 2 ≠ g
        omega
  | seq _ _ ih ih' =>
      rw [Regex.mentions, Bool.or_eq_false_iff] at hr
      exact happend (ih hr.1) (ih' hr.2)
  | altLeft _ ih =>
      rw [Regex.mentions, Bool.or_eq_false_iff] at hr
      exact ih hr.1
  | altRight _ ih =>
      rw [Regex.mentions, Bool.or_eq_false_iff] at hr
      exact ih hr.2
  | round _ _ ih ih' | plus _ _ ih ih' => exact happend (ih hr) (ih' hr)

/-- An expression taken apart at a group: what stands before it, its body, and
what stands behind it. -/
structure Parting where
  front : Regex
  body : Regex
  back : Regex

/-- Take an expression apart at a group that stands in a row with the rest. -/
def Regex.part? (g : Nat) : Regex → Option Parting
  | .group h r =>
      if h = g ∧ r.mentions g = false then some ⟨.empty, r, .empty⟩ else none
  | .seq r s =>
    if s.mentions g = false then (r.part? g).map fun x =>
      ⟨x.front, x.body, .seq x.back s⟩
    else if r.mentions g = false then (s.part? g).map fun x =>
      ⟨.seq r x.front, x.body, x.back⟩
    else none
  | _ => none

/-- The marks of a match with those of one group among them. -/
def Marked (g p k : Nat) (ms : Marks) : Prop :=
  ∃ front inner back : Marks,
    ms = front ++ (2 * g, p) :: (inner ++ (2 * g + 1, k) :: back) ∧
    (∀ x ∈ inner, x.1 / 2 ≠ g) ∧ ∀ x ∈ back, x.1 / 2 ≠ g

theorem Marked.append_left {g p k : Nat} {ms : Marks}
    (h : Marked g p k ms) (ls : Marks) :
    Marked g p k (ls ++ ms) := by
  obtain ⟨front, inner, back, rfl, hinner, hback⟩ := h
  exact ⟨ls ++ front, inner, back, (List.append_assoc _ _ _).symm,
    hinner, hback⟩

theorem Marked.append_right {g p k : Nat} {ms ls : Marks} (h : Marked g p k ms)
    (hls : ∀ x ∈ ls, x.1 / 2 ≠ g) : Marked g p k (ms ++ ls) := by
  obtain ⟨front, inner, back, rfl, hinner, hback⟩ := h
  refine ⟨front, inner, back ++ ls, by simp, hinner, ?_⟩
  intro x hx
  exact (List.mem_append.mp hx).elim (hback x) (hls x)

/-- A match taken apart at a group in the same way as the expression. -/
theorem Takes.part {text : Array Char} {r : Regex} {g i j : Nat} {ms : Marks}
    {x : Parting} (h : Takes text r i j ms) (hx : r.part? g = some x) :
    ∃ p k l ns l', Takes text x.front i p l ∧ Takes text x.body p k ns ∧
    Takes text x.back k j l' ∧ Marked g p k ms ∧ ∃ l'', ms = l'' ++ l' := by
  induction r generalizing i j ms x with
  | group h' r _ =>
      rw [Regex.part?] at hx
      split at hx
      · next hg =>
          obtain ⟨rfl, hnot⟩ := hg
          cases hx
          obtain ⟨ns, hr, rfl⟩ := takes_group.mp h
          have hempty : ∀ i, i ≤ text.size → Takes text .empty i i [] :=
            fun i hi => takes_empty.mpr ⟨rfl, hi, rfl⟩
          have hle := hr.le
          have hsize := hr.le_size
          refine ⟨i, j, [], ns, [], hempty i (by omega), hr, hempty j hsize, ?_,
            _, (List.append_nil _).symm⟩
          exact ⟨[], ns, [], rfl, hr.spells.marks_of_not_mentions hnot,
            fun x hx => absurd hx List.not_mem_nil⟩
      · cases hx
  | seq r s ihr ihs =>
      obtain ⟨q, ms, ns, hr, hs, rfl⟩ := takes_seq.mp h
      rw [Regex.part?] at hx
      split at hx
      · next hnot =>
          obtain ⟨y, hy, rfl⟩ := Option.map_eq_some_iff.mp hx
          obtain ⟨p, k, l, ns', l', hfront, hbody, hback, hmarked, l'', rfl⟩ :=
            ihr hr hy
          refine ⟨p, k, l, ns', l' ++ ns, hfront, hbody,
            takes_seq.mpr ⟨q, l', ns, hback, hs, rfl⟩, hmarked.append_right
              (hs.spells.marks_of_not_mentions hnot), l'', ?_⟩
          rw [List.append_assoc]
      · split at hx
        · obtain ⟨y, hy, rfl⟩ := Option.map_eq_some_iff.mp hx
          obtain ⟨p, k, l, ns', l', hfront, hbody, hback, hmarked, l'', rfl⟩ :=
            ihs hs hy
          refine ⟨p, k, ms ++ l, ns', l',
            takes_seq.mpr ⟨q, ms, l, hr, hfront, rfl⟩, hbody, hback,
            hmarked.append_left ms, ms ++ l'', ?_⟩
          rw [List.append_assoc]
        · cases hx
  | empty | one | look | alt | star | plus => cases hx

/-! ## The marks of a match -/

/-- The match has the marks of its parts, and around them the marks of the
whole. -/
def Match.Has (m : Match) (ms : Marks) : Prop :=
  m.marks = ((0, m.start) :: (ms ++ [(1, m.stop)])).reverse

theorem lookup_of_not_mem {key : Nat} {l l' : Marks} (h : ∀ x ∈ l, x.1 ≠ key) :
    (l ++ l').lookup key = l'.lookup key := by
  have hnone : l.lookup key = none := by
    rw [List.lookup_eq_none_iff]
    intro x hx
    rw [bne_iff_ne]
    exact fun heq => h x hx heq.symm
  rw [List.lookup_append, hnone, Option.none_or]

theorem Match.Has.span?_eq_some {m : Match} {ms : Marks}
    (h : m.Has ms) {g p k : Nat} (hg : 0 < g)
    (hms : Marked g p k ms) : m.span? g = some (p, k) := by
  obtain ⟨front, inner, back, rfl, hinner, hback⟩ := hms
  have hmarks : m.marks = ((1, m.stop) :: back.reverse) ++
      ((2 * g + 1, k) :: (inner.reverse ++ (2 * g, p) ::
        (front.reverse ++ [(0, m.start)]))) := by
    rw [h]
    simp
  have hskip : ∀ key, key / 2 = g →
      ∀ x ∈ (1, m.stop) :: back.reverse, x.1 ≠ key := by
    rintro key rfl x hx rfl
    rcases List.mem_cons.mp hx with rfl | hx
    · exact absurd hg (by show ¬ 0 < 1 / 2; decide)
    · exact hback x (List.mem_reverse.mp hx) rfl
  have hstop : m.marks.lookup (2 * g + 1) = some k := by
    rw [hmarks, lookup_of_not_mem (hskip _ (by omega)), List.lookup_cons_self]
  have hstart : m.marks.lookup (2 * g) = some p := by
    have hne : (2 * g == 2 * g + 1) = false := by
      rw [beq_eq_false_iff_ne]
      omega
    have hinner' : ∀ x ∈ inner.reverse, x.1 ≠ 2 * g := by
      intro x hx heq
      exact hinner x (List.mem_reverse.mp hx) (by omega)
    rw [hmarks, lookup_of_not_mem (hskip _ (by omega)), List.lookup_cons, hne]
    show List.lookup (2 * g) (inner.reverse ++ _) = _
    rw [lookup_of_not_mem hinner', List.lookup_cons_self]
  rw [Match.span?, hstart, hstop]
  rfl

theorem Match.Has.span?_eq_none {m : Match} {ms : Marks}
    (h : m.Has ms) {g : Nat} (hg : 0 < g)
    (hms : ∀ x ∈ ms, x.1 / 2 ≠ g) : m.span? g = none := by
  have hstart : m.marks.lookup (2 * g) = none := by
    rw [h, List.lookup_eq_none_iff]
    intro x hx
    rw [bne_iff_ne]
    rintro heq
    rcases List.mem_cons.mp (List.mem_reverse.mp hx) with rfl | hx
    · exact absurd heq (by show 2 * g ≠ 0; omega)
    · rcases List.mem_append.mp hx with hx | hx
      · exact hms x hx (by omega)
      · rw [List.mem_singleton.mp hx] at heq
        exact absurd heq (by show 2 * g ≠ 1; omega)
  rw [Match.span?, hstart]
  rfl

/-! ## Patterns and what they denote -/

/-- The pattern was compiled and means what the expression means. -/
structure Denotes (p : Pattern) (r : Regex) : Prop where
  whole : p.Whole
  engine : ∃ s, p.engine = .ofRegex (.group 0 s) ∧ Same s r

namespace Denotes

variable {p : Pattern} {r : Regex} {text : Array Char}

theorem canMatch_iff (h : p.Denotes r) {i j : Nat} :
    p.CanMatch text i j ↔ ∃ ms, Takes text r i j ms := by
  obtain ⟨s, he, hs⟩ := h.engine
  exact canMatch_of_same he hs

theorem takes_of_first (h : p.Denotes r) {k : Nat} {m : Match}
    (hm : p.First text k m) :
    ∃ ms, Takes text r m.start m.stop ms ∧ m.Has ms := by
  obtain ⟨s, he, hs⟩ := h.engine
  obtain ⟨t, ht, hmarks⟩ := hm.preferred
  have htakes := ht.way.takes hm.start_le
  have hplan : p.engine.plan.regex = .group 0 s := by
    rw [he]
    exact Plan.regex_ofRegex 0 (.group 0 s)
  rw [hplan] at htakes
  obtain ⟨ms, hms, heq⟩ := takes_group.mp htakes
  refine ⟨ms, hms.same hs, ?_⟩
  rw [Match.Has, hmarks, heq]

theorem takes_of_sequel (h : p.Denotes r) {last : Nat} {ms : List Match}
    (hms : p.Sequel text last ms) :
    ∀ m ∈ ms, ∃ l, Takes text r m.start m.stop l ∧ m.Has l := by
  induction hms with
  | nil _ => exact fun m hm => absurd hm List.not_mem_nil
  | cons hfollows _ ih =>
      intro m hm
      rcases List.mem_cons.mp hm with rfl | hm
      · obtain ⟨m₀, h₀, hif⟩ := hfollows
        split at hif
        · exact h.takes_of_first hif
        · rw [hif]
          exact h.takes_of_first h₀
      · exact ih m hm

/-- Every match takes a part of the text that the expression spells. -/
theorem takes_of_mem (h : p.Denotes r) {ms : List Match}
    (hms : p.Occurrences text ms) :
    ∀ m ∈ ms, ∃ l, Takes text r m.start m.stop l ∧ m.Has l := by
  cases hms with
  | nil _ => exact fun m hm => absurd hm List.not_mem_nil
  | cons hfirst hsequel =>
      intro m hm
      rcases List.mem_cons.mp hm with rfl | hm
      · exact h.takes_of_first hfirst
      · exact h.takes_of_sequel hsequel m hm

theorem not_empty (h : p.Denotes r) (hr : r.closed = true) {i : Nat} :
    ¬ p.CanMatch text i i := by
  rw [h.canMatch_iff]
  rintro ⟨ms, ht⟩
  exact (ht.spells.closed hr none).1 (slice_self text i)

theorem no_first (h : p.Denotes r) {k : Nat}
    (hno : ∀ m, ¬ p.First text k m) (i j : Nat) (l : Marks)
    (hki : k ≤ i) : ¬ Takes text r i j l := by
  have hspec := find?_spec h.whole text k
  cases hf : p.find? text k with
  | none =>
      rw [hf] at hspec
      exact fun ht => hspec i j hki (h.canMatch_iff.mpr ⟨l, ht⟩)
  | some m =>
      rw [hf] at hspec
      exact absurd hspec (hno m)

theorem gap_of_first (h : p.Denotes r)
    (hr : r.closed = true) {k : Nat} {m : Match}
    (hm : p.First text k m) (i j : Nat)
    (l : Marks) (hki : k ≤ i) (hj : j ≤ m.start) :
    ¬ Takes text r i j l := by
  intro ht
  have hle := ht.le
  have hcan : p.CanMatch text i j := h.canMatch_iff.mpr ⟨l, ht⟩
  rcases Nat.lt_or_ge i m.start with hlt | hge
  · exact hm.least i j hki hlt hcan
  · have : i = j := by omega
    subst this
    exact h.not_empty hr hcan

/-- A match of a closed expression is not empty, so none is passed over. -/
theorem follows_iff (h : p.Denotes r)
    (hr : r.closed = true) {last : Nat} {m : Match} :
    p.Follows text last m ↔ p.First text last m := by
  have hne : ∀ m₀, p.First text last m₀ →
      ¬ (m₀.start = last ∧ m₀.stop = last) := by
    rintro m₀ h₀ ⟨hstart, hstop⟩
    obtain ⟨l, hl, -⟩ := h.takes_of_first h₀
    rw [hstart, hstop] at hl
    exact h.not_empty hr (h.canMatch_iff.mpr ⟨l, hl⟩)
  constructor
  · rintro ⟨m₀, h₀, hif⟩
    rw [if_neg (hne m₀ h₀)] at hif
    rw [hif]
    exact h₀
  · intro hm
    exact ⟨m, hm, by rw [if_neg (hne m hm)]⟩

theorem gapsFree_of_sequel (h : p.Denotes r)
    (hr : r.closed = true) {last : Nat} {ms : List Match}
    (hms : p.Sequel text last ms) : GapsFree r text last ms := by
  induction hms with
  | nil hno => exact h.no_first fun m hm => hno m ((h.follows_iff hr).mpr hm)
  | cons hm _ ih => exact ⟨h.gap_of_first hr ((h.follows_iff hr).mp hm), ih⟩

/-- The search leaves nothing between the matches. -/
theorem gapsFree (h : p.Denotes r) (hr : r.closed = true) {ms : List Match}
    (hms : p.Occurrences text ms) : GapsFree r text 0 ms := by
  cases hms with
  | nil hno => exact h.no_first hno
  | cons hm hsequel =>
      exact ⟨h.gap_of_first hr hm, h.gapsFree_of_sequel hr hsequel⟩

end Denotes

end Codemod.Pattern
