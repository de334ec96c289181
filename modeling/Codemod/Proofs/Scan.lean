import Codemod.Proofs.Explore
import Codemod.Proofs.GroupNumber

/-!
# Finding all matches

What the matches of a pattern in a text are, said without the search: the first
match starts at the smallest place where the pattern can match, and of the ways
to match there it is the preferred one; the next one starts at the smallest
such place from the end of the match before it on, except that an empty match
right there is passed over. `allMatches_iff` says that these are the matches
that are found, and that there is one such list.
-/

namespace Codemod.Pattern

/-- The pattern can match the part of the text from `i` to `j`, on whatever
way. -/
def CanMatch (p : Pattern) (text : Array Char) (i j : Nat) : Prop :=
  i ≤ text.size ∧ ∃ t, Way text p.engine.plan i j t

/-- `m` is the first match at `k` or later: it starts at the first place from
`k` on where the pattern can match, and is the preferred one there. -/
structure First (p : Pattern) (text : Array Char) (k : Nat) (m : Match) :
    Prop where
  le_start : k ≤ m.start
  start_le : m.start ≤ text.size
  preferred : ∃ t, Preferred text p.engine.plan m.start m.stop t ∧
    m.marks = t.marks.reverse
  least : ∀ i j, k ≤ i → i < m.start → ¬ p.CanMatch text i j

/-- `m` is the match after one that ended at `last`. -/
def Follows (p : Pattern) (text : Array Char) (last : Nat) (m : Match) : Prop :=
  ∃ m₀, p.First text last m₀ ∧ if m₀.start = last ∧
    m₀.stop = last then p.First text (last + 1) m else m = m₀

/-- The matches after one that ended at `last`. -/
inductive Sequel (p : Pattern) (text : Array Char) :
    Nat → List Match → Prop where
  | nil {last : Nat} : (∀ m, ¬ p.Follows text last m) → Sequel p text last []
  | cons {last : Nat} {m : Match} {ms : List Match} :
      p.Follows text last m → Sequel p text m.stop ms →
      Sequel p text last (m :: ms)

/-- The matches of a pattern in a text, from left to right. -/
inductive Occurrences (p : Pattern) (text : Array Char) :
    List Match → Prop where
  | nil : (∀ m, ¬ p.First text 0 m) → Occurrences p text []
  | cons {m : Match} {ms : List Match} :
      p.First text 0 m → Sequel p text m.stop ms → Occurrences p text (m :: ms)

/-- The pattern is an expression without group 0, inside group 0. -/
def Whole (p : Pattern) : Prop :=
  ∃ r : Regex, r.Numbers ∧ p.engine = .ofRegex (.group 0 r)

/-- A pattern that was compiled is the expression of what was read. -/
theorem compile_eq_ok {source : String} {options : Options} {p : Pattern}
    (h : compile source options = .ok p) :
    ∃ form names, Reader.read options.flags source.toList = .ok (form, names) ∧
      p = ⟨source, options, keptNames form names,
        .ofRegex (.group 0 form.regex)⟩ := by
  rw [compile] at h
  cases hr : Reader.read options.flags source.toList with
  | error e => rw [hr] at h; cases h
  | ok x =>
      rw [hr] at h
      cases h
      exact ⟨x.1, x.2, rfl, rfl⟩

theorem whole_compile {source : String} {options : Options} {p : Pattern}
    (h : compile source options = .ok p) : p.Whole := by
  obtain ⟨form, names, hread, rfl⟩ := compile_eq_ok h
  exact ⟨form.regex, (Reader.numbers_read hread).regex, rfl⟩

theorem First.unique {p : Pattern} {text : Array Char} {k : Nat} {m m' : Match}
    (h : p.First text k m) (h' : p.First text k m') : m' = m := by
  obtain ⟨t, ht, hm⟩ := h.preferred
  obtain ⟨t', ht', hm'⟩ := h'.preferred
  have hstart : m'.start = m.start := by
    rcases Nat.lt_trichotomy m.start m'.start with hlt | heq | hlt
    · exact absurd ⟨h.start_le, t, ht.way⟩ (h'.least _ _ h.le_start hlt)
    · exact heq.symm
    · exact absurd ⟨h'.start_le, t', ht'.way⟩ (h.least _ _ h'.le_start hlt)
  rw [hstart] at ht'
  obtain ⟨hstop, rfl⟩ := ht.unique ht'
  have hmarks : m'.marks = m.marks := hm'.trans hm.symm
  obtain ⟨start, stop, marks⟩ := m
  obtain ⟨start', stop', marks'⟩ := m'
  cases hstart
  cases hstop
  cases hmarks
  rfl

theorem First.le_stop {p : Pattern} {text : Array Char} {k : Nat} {m : Match}
    (h : p.First text k m) : m.start ≤ m.stop ∧ m.stop ≤ text.size := by
  obtain ⟨t, ht, -⟩ := h.preferred
  exact ⟨ht.way.le, ht.way.le_size h.start_le⟩

/-- Marks of other slots do not hide the mark of slot 0 behind them. -/
theorem lookup_zero_append {l : Marks} {i : Nat} (hl : ∀ x ∈ l, 2 ≤ x.1) :
    (l ++ [(0, i)]).lookup 0 = some i := by
  induction l with
  | nil => rfl
  | cons x l ih =>
      have hx : (0 == x.1) = false := by
        have := hl x List.mem_cons_self
        simp only [beq_eq_false_iff_ne]
        omega
      obtain ⟨key, place⟩ := x
      rw [List.cons_append, List.lookup_cons, hx]
      exact ih fun y hy => hl y (List.mem_cons_of_mem _ hy)

section

variable {p : Pattern} (hp : p.Whole) (text : Array Char)

include hp

/-- The marks of group 0 are the two ends of a match. -/
theorem Whole.ofMarks? {i j : Nat} {t : Trail}
    (h : Way text p.engine.plan i j t) :
    Match.ofMarks? t.marks.reverse = some ⟨i, j, t.marks.reverse⟩ := by
  obtain ⟨r, hr, he⟩ := hp
  have hplan : p.engine.plan = .group 0 0 (Plan.ofRegex 2 r).1 := by
    rw [he]; rfl
  rw [hplan] at h
  cases h with
  | @group _ _ _ t _ _ h =>
      have hmarks : (Trail.mark 0 i (2 * 0) ++ t ++
          Trail.mark (0 + 1) j (2 * 0 + 1)).marks.reverse =
          (1, j) :: (t.marks.reverse ++ [(0, i)]) := by
        simp [Trail.mark]
      have hstart : (t.marks.reverse ++ [(0, i)]).lookup 0 = some i := by
        refine lookup_zero_append fun x hx => ?_
        refine h.two_le_mark ?_ x (List.mem_reverse.mp hx)
        rw [Plan.regex_ofRegex]
        exact hr
      rw [hmarks, Match.ofMarks?]
      simp [List.lookup_cons, hstart]

omit text in
theorem Whole.numbered :
    Numbered 0 p.engine.size (p.engine.plan.stations []) := by
  obtain ⟨r, -, he⟩ := hp
  rw [he]
  exact Plan.numbered_stations (.group 0 r) 0 []

/-- What the engine finds, in terms of ways. -/
theorem Whole.find_finds (k : Nat) :
    Finds text (.none (p.engine.size * (text.size + 1)))
      ((List.range' k (text.size + 1 - k)).map fun i =>
        ⟨[.run p.engine.plan], i, []⟩) (p.engine.find text k) := by
  refine explore_finds ⟨_, hp.numbered⟩ ?_ ?_
  · intro l hl
    exact Nat.mul_le_mul_right _ (hp.numbered.within l hl).2
  · intro th hth
    obtain ⟨i, hi, rfl⟩ := List.mem_map.mp hth
    rw [List.mem_range'_1] at hi
    exact ⟨show i ≤
      text.size by omega, .inr (p.engine.plan.run_mem_stations [])⟩

end

theorem avoids_none (text : Array Char) (bound : Nat) (u : Trail) :
    Avoids text (.none bound) u := by
  intro s _
  simp [Visits.isNew, Visits.none]

theorem noRun_iff_not_canMatch {p : Pattern} {text : Array Char} {bound i : Nat}
    (hi : i ≤ text.size) :
    NoRun text (.none bound) ⟨[.run p.engine.plan], i, []⟩ ↔
    ∀ j, ¬ p.CanMatch text i j := by
  constructor
  · rintro h j ⟨-, t, ht⟩
    exact h j t (run_iff_way.mpr ht) (avoids_none _ _ _)
  · intro h e u hr _
    exact h e ⟨hi, u, run_iff_way.mp hr⟩

/-- Of consecutive places, those below one of them stand in front of it. -/
theorem mem_front_range' {k n i i' : Nat} {front back : List Nat}
    (h : List.range' k n = front ++ i :: back) (hi' : i' ∈ List.range' k n)
    (hlt : i' < i) :
    i' ∈ front := by
  have hsorted : (front ++ i :: back).Pairwise (· < ·) :=
    h ▸ List.pairwise_lt_range'
  rw [h] at hi'
  rcases List.mem_append.mp hi' with hin | hin
  · exact hin
  · rcases List.mem_cons.mp hin with rfl | hin
    · exact absurd hlt (Nat.lt_irrefl _)
    · have hgt :=
        (List.pairwise_cons.mp (List.pairwise_append.mp hsorted).2.1).1 i' hin
      omega

/-- The search finds the first match from a place on, if there is one. -/
theorem find?_spec {p : Pattern} (hp : p.Whole) (text : Array Char) (k : Nat) :
    match p.find? text k with
    | none => ∀ i j, k ≤ i → ¬ p.CanMatch text i j
    | some m => p.First text k m := by
  have hfinds := hp.find_finds text k
  rw [find?]
  cases hfind : p.engine.find text k with
  | none =>
      rw [hfind] at hfinds
      intro i j hki hcan
      have hi := hcan.1
      refine (noRun_iff_not_canMatch hi).mp
        (hfinds _ (List.mem_map.mpr ⟨i, ?_, rfl⟩)) j hcan
      rw [List.mem_range'_1]
      omega
  | some marks =>
      rw [hfind] at hfinds
      obtain ⟨front, th, back, e, u, heq, hfront, hbest, rfl⟩ := hfinds
      obtain ⟨l, l', hl, rfl, hl'⟩ := List.map_eq_append_iff.mp heq
      obtain ⟨i, l'', rfl, rfl, rfl⟩ := List.map_eq_cons_iff.mp hl'
      have hi : k ≤ i ∧ i ≤ text.size := by
        have hmem : i ∈ List.range' k (text.size + 1 - k) := by rw [hl]; simp
        rw [List.mem_range'_1] at hmem
        omega
      have hway := run_iff_way.mp hbest.run
      rw [List.append_nil, Option.bind_some, hp.ofMarks? text hway]
      refine ⟨hi.1, hi.2, ⟨u, ⟨hway, hbest.direct, ?_⟩, rfl⟩, ?_⟩
      · intro j' u' hway' hd'
        exact hbest.best j' u' (run_iff_way.mpr hway') (avoids_none _ _ _) hd'
      · intro i' j hk hlt
        have hmem : i' ∈ l := by
          refine mem_front_range' hl ?_ hlt
          rw [List.mem_range'_1]
          exact ⟨hk, by have := hi.2; have hlt' : i' < i := hlt; omega⟩
        have hi' : i' ≤ text.size := by
          have hlt' : i' < i := hlt
          have := hi.2
          omega
        exact (noRun_iff_not_canMatch hi').mp
          (hfront _ (List.mem_map.mpr ⟨i', hmem, rfl⟩)) j

section

variable {p : Pattern} (hp : p.Whole) {text : Array Char}

include hp

theorem find?_eq_some_iff {k : Nat} {m : Match} :
    p.find? text k = some m ↔ p.First text k m := by
  have hspec := find?_spec hp text k
  constructor
  · intro h
    rw [h] at hspec
    exact hspec
  · intro h
    cases hf : p.find? text k with
    | none =>
        rw [hf] at hspec
        obtain ⟨t, ht, -⟩ := h.preferred
        exact absurd ⟨h.start_le, t, ht.way⟩ (hspec m.start m.stop h.le_start)
    | some m' =>
        rw [hf] at hspec
        rw [h.unique hspec]

theorem findNext?_eq_some_iff {last : Nat} {m : Match} :
    p.findNext? text last = some m ↔ p.Follows text last m := by
  rw [findNext?, Follows]
  cases hf : p.find? text last with
  | none =>
      constructor
      · intro h
        cases h
      · rintro ⟨m₀, h₀, -⟩
        rw [(find?_eq_some_iff hp).mpr h₀] at hf
        cases hf
  | some m₀ =>
      have h₀ := (find?_eq_some_iff hp).mp hf
      have hempty : (m₀.isEmpty && m₀.stop == last) = true ↔
          m₀.start = last ∧ m₀.stop = last := by
        rw [Match.isEmpty, Bool.and_eq_true, beq_iff_eq, beq_iff_eq]
        constructor <;> rintro ⟨h, h'⟩ <;> exact ⟨by omega, h'⟩
      constructor
      · intro h
        refine ⟨m₀, h₀, ?_⟩
        simp only at h
        split at h
        · next he =>
            rw [if_pos (hempty.mp he)]
            exact (find?_eq_some_iff hp).mp h
        · next he =>
            rw [if_neg fun hc => he (hempty.mpr hc)]
            exact (Option.some.inj h).symm
      · rintro ⟨m₁, h₁, hm⟩
        rw [h₀.unique h₁] at hm
        simp only
        split at hm
        · next he =>
            rw [if_pos (hempty.mpr he)]
            exact (find?_eq_some_iff hp).mpr hm
        · next he => rw [if_neg fun hc => he (hempty.mp hc), hm]

omit hp in
/-- A match after another one ends behind it, within the text. -/
theorem Follows.lt_stop {last : Nat} {m : Match} (h : p.Follows text last m) :
    last ≤ m.start ∧ last < m.stop ∧ m.stop ≤ text.size := by
  obtain ⟨m₀, h₀, hm⟩ := h
  split at hm
  · have hle := hm.le_start
    have hstop := hm.le_stop
    omega
  · next hne =>
      rw [hm]
      have hle := h₀.le_start
      have hstop := h₀.le_stop
      omega

theorem matchesAfter_iff {last : Nat} {ms : List Match} :
    p.Sequel text last ms ↔ p.matchesAfter text last = ms := by
  fun_induction matchesAfter p text last generalizing ms with
  | case1 last m hf hlt ih =>
      have hm := (findNext?_eq_some_iff hp).mp hf
      constructor
      · intro h
        cases h with
        | nil hno => exact absurd hm (hno m)
        | @cons _ m' ms' hm' hms =>
            have heq : m' = m := by
              rw [(findNext?_eq_some_iff hp).mpr hm'] at hf
              exact Option.some.inj hf
            subst heq
            rw [ih.mp hms]
      · rintro rfl
        exact .cons hm (ih.mpr rfl)
  | case2 last m hf hnot =>
      have hstop := ((findNext?_eq_some_iff hp).mp hf).lt_stop
      exact absurd ⟨hstop.2.1, hstop.2.2⟩ hnot
  | case3 last hf =>
      have hno : ∀ m, ¬ p.Follows text last m := by
        intro m hm
        rw [(findNext?_eq_some_iff hp).mpr hm] at hf
        cases hf
      constructor
      · intro h
        cases h with
        | nil => rfl
        | cons hm _ => exact absurd hm (hno _)
      · rintro rfl
        exact .nil hno

/-- The matches that are found are the matches of the pattern. -/
theorem allMatches_iff {ms : List Match} :
    p.Occurrences text ms ↔ p.allMatches text = ms := by
  rw [allMatches]
  cases hf : p.find? text 0 with
  | none =>
      have hno : ∀ m, ¬ p.First text 0 m := by
        intro m hm
        rw [(find?_eq_some_iff hp).mpr hm] at hf
        cases hf
      constructor
      · intro h
        cases h with
        | nil => rfl
        | cons hm _ => exact absurd hm (hno _)
      · rintro rfl
        exact .nil hno
  | some m =>
      have hm := (find?_eq_some_iff hp).mp hf
      constructor
      · intro h
        cases h with
        | nil hno => exact absurd hm (hno m)
        | @cons m' ms' hm' hms =>
            rw [hm.unique hm'] at hms ⊢
            exact congrArg (m :: ·) ((matchesAfter_iff hp).mp hms)
      · rintro rfl
        exact .cons hm ((matchesAfter_iff hp).mpr rfl)

end

end Codemod.Pattern
