import Codemod.Proofs.Capture

/-!
# What the search passes over

The matches of a pattern do not overlap, so a part that it could match may be
passed over for a match that was found before. It cannot begin just anywhere
then: `covered` says that it begins inside a match that was found. And each
match is the first one from where the search was taken up again, which is the
front of the text or the end of another match.
-/

namespace Codemod.Pattern.Denotes

variable {p : Pattern} {r : Regex} {text : Array Char}
  {ms : List Match} {last : Nat}

theorem first_of_sequel (h : p.Denotes r)
    (hr : r.closed = true) (hms : p.Sequel text last ms) :
    ∀ m ∈ ms, ∃ k, p.First text k m ∧ (k = last ∨ ∃ m' ∈ ms, k = m'.stop) := by
  induction hms with
  | nil _ => exact fun m hm => absurd hm List.not_mem_nil
  | @cons last m' ms hfollows _ ih =>
      intro m hm
      rcases List.mem_cons.mp hm with rfl | hm
      · exact ⟨last, (h.follows_iff hr).mp hfollows, .inl rfl⟩
      · obtain ⟨k, hfirst, hk⟩ := ih m hm
        refine ⟨k, hfirst, .inr ?_⟩
        rcases hk with rfl | ⟨m'', hmem, rfl⟩
        · exact ⟨m', List.mem_cons_self, rfl⟩
        · exact ⟨m'', List.mem_cons_of_mem _ hmem, rfl⟩

/-- Each match is the first one from the front of the text or from the end of a
match on. -/
theorem first_of_mem (h : p.Denotes r)
    (hr : r.closed = true) (hms : p.Occurrences text ms) :
    ∀ m ∈ ms, ∃ k, p.First text k m ∧ (k = 0 ∨ ∃ m' ∈ ms, k = m'.stop) := by
  cases hms with
  | nil _ => exact fun m hm => absurd hm List.not_mem_nil
  | @cons m' ms hfirst hsequel =>
      intro m hm
      rcases List.mem_cons.mp hm with rfl | hm
      · exact ⟨0, hfirst, .inl rfl⟩
      · obtain ⟨k, hfirst, hk⟩ := h.first_of_sequel hr hsequel m hm
        refine ⟨k, hfirst, .inr ?_⟩
        rcases hk with rfl | ⟨m'', hmem, rfl⟩
        · exact ⟨m', List.mem_cons_self, rfl⟩
        · exact ⟨m'', List.mem_cons_of_mem _ hmem, rfl⟩

/-- A part that can be matched does not begin before the first match, and not
at its end or behind it unless it is covered there. -/
theorem covered_cons (h : p.Denotes r) {m : Match}
    (hm : p.First text last m) {i j : Nat} {l : Marks}
    (hi : last ≤ i) (ht : Takes text r i j l)
    (hrest : m.stop ≤ i → ∃ m' ∈ ms, m'.start ≤ i ∧ i < m'.stop) :
    ∃ m' ∈ m :: ms, m'.start ≤ i ∧ i < m'.stop := by
  rcases Nat.lt_or_ge i m.start with hlt | hge
  · exact absurd (h.canMatch_iff.mpr ⟨l, ht⟩) (hm.least i j hi hlt)
  · rcases Nat.lt_or_ge i m.stop with hlt | hstop
    · exact ⟨m, List.mem_cons_self, hge, hlt⟩
    · obtain ⟨m', hmem, hin⟩ := hrest hstop
      exact ⟨m', List.mem_cons_of_mem _ hmem, hin⟩

theorem covered_of_sequel (h : p.Denotes r)
    (hr : r.closed = true) (hms : p.Sequel text last ms)
    {i j : Nat} {l : Marks} (hi : last ≤ i) (ht : Takes text r i j l) :
    ∃ m ∈ ms, m.start ≤ i ∧ i < m.stop := by
  induction hms with
  | nil hno =>
      exact absurd ht
        (h.no_first (fun m hm => hno m ((h.follows_iff hr).mpr hm)) i j l hi)
  | cons hfollows _ ih =>
      exact h.covered_cons ((h.follows_iff hr).mp hfollows) hi ht ih

theorem covered (h : p.Denotes r) (hr : r.closed = true)
    (hms : p.Occurrences text ms) {i j : Nat}
    {l : Marks} (ht : Takes text r i j l) :
    ∃ m ∈ ms, m.start ≤ i ∧ i < m.stop := by
  cases hms with
  | nil hno => exact absurd ht (h.no_first hno i j l (Nat.zero_le i))
  | cons hfirst hsequel =>
      exact h.covered_cons hfirst (Nat.zero_le i) ht fun hi =>
        h.covered_of_sequel hr hsequel hi ht

end Codemod.Pattern.Denotes
