import Codemod.Proofs.Station

/-!
# What the search finds

The search never enters a step twice at the same place. `explore_finds` says
that this loses nothing: the answer of a search is what the preferred direct
run of the first thread that has one has marked, and a search without an answer
has left no run at all, direct or not.

The statement is about the runs that avoid what has been visited so far, and
that is what makes the induction go through. Visiting a step takes away the
runs through it from all threads. If the threads that come from that step have
no run left, every run through it is lost to the others too, because its part
after the last visit to that step would be a run of one of those threads. So a
step that led nowhere can be forgotten by everybody.
-/

namespace Codemod.Pattern

/-- The number under which a visit to a step at a place is noted. -/
def visitKey (text : Array Char) (s : Nat × Nat) : Nat :=
  s.1 * (text.size + 1) + s.2

theorem visitKey_inj {text : Array Char} {s s' : Nat × Nat}
    (h : s.2 ≤ text.size) (h' : s'.2 ≤ text.size)
    (heq : visitKey text s = visitKey text s') : s = s' := by
  obtain ⟨n, i⟩ := s
  obtain ⟨m, j⟩ := s'
  simp only [visitKey] at h h' heq
  have hmod : i = j := by
    have := congrArg (· % (text.size + 1)) heq
    simp only [Nat.mul_comm n, Nat.mul_comm m, Nat.mul_add_mod,
      Nat.mod_eq_of_lt (show i < text.size + 1 by omega),
      Nat.mod_eq_of_lt (show j < text.size + 1 by omega)] at this
    exact this
  subst hmod
  have := Nat.eq_of_mul_eq_mul_right (Nat.succ_pos text.size)
    (Nat.add_right_cancel heq)
  rw [this]

/-- A trail passes no step that has been visited. -/
def Avoids (text : Array Char) (v : Visits) (u : Trail) : Prop :=
  ∀ s ∈ u.steps, v.isNew (visitKey text s) = true

/-- No run of a thread avoids what has been visited. -/
def NoRun (text : Array Char) (v : Visits) (th : Thread) : Prop :=
  ∀ e u, Run text th.todo th.place e u → ¬ Avoids text v u

/-- The preferred one of the direct runs of a thread that avoid what has been
visited. -/
structure Best (text : Array Char) (v : Visits) (th : Thread) (e : Nat)
    (u : Trail) : Prop where
  run : Run text th.todo th.place e u
  avoids : Avoids text v u
  direct : u.Direct
  best : ∀ e' u', Run text th.todo th.place e' u' → Avoids text v u' →
    u'.Direct → (e' = e ∧ u' = u) ∨ Before u.choices u'.choices

/-- What the answer of a search says about the threads that were searched. -/
def Finds (text : Array Char) (v : Visits) (stack : List Thread) :
    Option Marks → Prop
  | none => ∀ th ∈ stack, NoRun text v th
  | some marks => ∃ front th back e u, stack = front ++ th :: back ∧
      (∀ th' ∈ front, NoRun text v th') ∧ Best text v th e u ∧
      marks = u.marks.reverse ++ th.marks

/-- A thread that stands within the text, at a station of the plan or at the
end. -/
structure Thread.Sound (text : Array Char) (p : Plan) (th : Thread) : Prop where
  place : th.place ≤ text.size
  todo : th.todo = [] ∨ th.todo ∈ p.stations []

theorem Task.next_place {text : Array Char} {t : Task}
    {k : List Task} {i : Nat} {marks : Marks}
    {th : Thread} (h : th ∈ t.next text k i marks) (hi : i ≤ text.size) :
    th.place ≤ text.size := by
  cases t with
  | close n g =>
      simp only [Task.next, List.mem_singleton] at h
      rw [h]
      exact hi
  | again n greedy p =>
      rw [Task.next] at h
      rcases mem_round.mp h with rfl | rfl <;> exact hi
  | run p =>
      cases p with
      | one n s =>
          simp only [Task.next] at h
          split at h
          · next hc =>
              obtain ⟨c, hc, -⟩ := (Option.any_eq_true _ _).mp hc
              obtain ⟨hlt, -⟩ := Array.getElem?_eq_some_iff.mp hc
              rw [List.mem_singleton] at h
              rw [h]
              exact hlt
          · cases h
      | look n a =>
          simp only [Task.next] at h
          split at h
          · rw [List.mem_singleton] at h
            rw [h]
            exact hi
          · cases h
      | star n greedy p =>
          rw [Task.next] at h
          rcases mem_round.mp h with rfl | rfl <;> exact hi
      | alt n p q =>
          simp only [Task.next, List.mem_cons, List.not_mem_nil, or_false] at h
          rcases h with rfl | rfl <;> exact hi
      | empty | group | seq | plus =>
          simp only [Task.next, List.mem_singleton] at h
          rw [h]
          exact hi

/-- What becomes of a sound thread is sound. -/
theorem Thread.Sound.next {text : Array Char}
    {p : Plan} {t : Task} {k : List Task} {i : Nat}
    {ms marks : Marks} {th : Thread} (h : Thread.Sound text p ⟨t :: k, i, ms⟩)
    (hth : th ∈ t.next text k i marks) : th.Sound text p := by
  refine ⟨Task.next_place hth h.place, ?_⟩
  rcases h.todo with hnil | hmem
  · cases hnil
  · exact Plan.next_mem_stations hmem hth

/-- The first step of a run, whatever it is: it goes to one of the threads that
can come next. -/
theorem Run.cons_inv {text : Array Char} {t : Task} {k : List Task}
    {i e : Nat} {u : Trail} (h : Run text (t :: k) i e u) :
    ∃ a w, a ∈ t.next text k i [] ∧ Run text a.todo a.place e w ∧
      u.steps = (t.number, i) :: w.steps := by
  cases h with
  | only hn h => exact ⟨_, _, by rw [hn]; simp, h, rfl⟩
  | first hn h => exact ⟨_, _, by rw [hn]; simp, h, rfl⟩
  | second hn h => exact ⟨_, _, by rw [hn]; simp, h, rfl⟩

/-- The places of a run lie within the text. -/
theorem Run.place_le {text : Array Char} {k : List Task} {i e : Nat} {u : Trail}
    (h : Run text k i e u) (hi : i ≤ text.size) :
    ∀ s ∈ u.steps, s.2 ≤ text.size := by
  have hstep : ∀ {t : Task} {k : List Task} {i : Nat}
      {l l' : List Thread} {a : Thread} {c : List Bool} {w : Trail},
      t.next text k i [] = l ++ a :: l' → i ≤ text.size →
      (a.place ≤ text.size → ∀ s ∈ w.steps, s.2 ≤ text.size) →
      ∀ s ∈ (⟨[(t.number, i)], c, a.marks⟩ ++ w : Trail).steps,
        s.2 ≤ text.size := by
    intro t k i l l' a c w hn hi ih s hs
    rcases List.mem_cons.mp hs with rfl | hs
    · exact hi
    · exact ih (Task.next_place (by rw [hn]; simp) hi) s hs
  induction h with
  | done => exact fun s hs => by cases hs
  | only hn _ ih => exact hstep (l := []) hn hi ih
  | first hn _ ih => exact hstep (l := []) hn hi ih
  | @second _ _ _ _ a _ _ hn _ ih => exact hstep (l := [a]) hn hi ih

theorem Avoids.note {text : Array Char} {v : Visits} {s : Nat × Nat} {u : Trail}
    (hs : s.2 ≤ text.size) (hu : ∀ x ∈ u.steps, x.2 ≤ text.size) :
    Avoids text (v.note (visitKey text s)) u ↔
    s ∉ u.steps ∧ Avoids text v u := by
  constructor
  · intro h
    refine ⟨?_, ?_⟩
    · intro hmem
      have := h s hmem
      rw [Visits.isNew_note] at this
      simp at this
    · intro x hx
      have := h x hx
      rw [Visits.isNew_note, Bool.and_eq_true] at this
      exact this.2
  · rintro ⟨hnot, h⟩ x hx
    have hne : visitKey text s ≠ visitKey text x := by
      intro heq
      rw [visitKey_inj hs (hu x hx) heq] at hnot
      exact hnot hx
    rw [Visits.isNew_note, h x hx]
    simpa using hne

section

variable {text : Array Char} {p : Plan} (hp : ∃ m, Numbered 0 m (p.stations []))

include hp

/-- The part of a run after its last visit to a step is a run of one of the
threads that come from that step. The induction is on the length of the run. -/
theorem Run.after_last {t : Task} {k : List Task} {i : Nat} {ms : Marks}
    (hs : Thread.Sound text p ⟨t :: k, i, ms⟩) {th : Thread}
    (hth : th.Sound text p) {e : Nat} {u : Trail}
    (h : Run text th.todo th.place e u) (hmem : (t.number, i) ∈ u.steps) :
    ∃ a ∈ t.next text k i [], ∃ w, Run text a.todo a.place e w ∧
    (t.number, i) ∉ w.steps ∧ ∀ s ∈ w.steps, s ∈ u.steps := by
  generalize hm : u.steps.length = m
  induction m generalizing th u with
  | zero =>
      rw [List.length_eq_zero_iff.mp hm] at hmem
      cases hmem
  | succ m ih =>
      obtain ⟨todo, j, marks⟩ := th
      cases todo with
      | nil =>
          obtain ⟨-, rfl⟩ := h.done_inv
          cases hmem
      | cons t' k' =>
          obtain ⟨a, w, ha, hw, hsteps⟩ := h.cons_inv
          rw [hsteps] at hmem hm ⊢
          by_cases hin : (t.number, i) ∈ w.steps
          · obtain ⟨b, hb, w', hw', hnot, hsub⟩ :=
              ih (hth.next ha) hw hin (by simpa using hm)
            exact ⟨b, hb, w', hw', hnot,
              fun s hs' => List.mem_cons_of_mem _ (hsub s hs')⟩
          · rcases List.mem_cons.mp hmem with heq | hmem
            · obtain ⟨hnum, rfl⟩ := Prod.mk.inj heq
              have hsame : t' :: k' = t :: k := by
                obtain ⟨m, hd⟩ := hp
                exact hd.distinct _
                  (hth.todo.resolve_left (List.cons_ne_nil _ _)) _
                  (hs.todo.resolve_left (List.cons_ne_nil _ _)) hnum.symm
              cases hsame
              exact ⟨a, ha, w, hw, hin, fun s hs' => List.mem_cons_of_mem _ hs'⟩
            · exact absurd hmem hin

variable {v : Visits} {t : Task} {k : List Task} {i : Nat} {ms : Marks}

/-- When a step leads nowhere, a run that avoids the visits avoids that step
too. -/
theorem Avoids.note_of_noRun (hs : Thread.Sound text p ⟨t :: k, i, ms⟩)
    (hno : ∀ a ∈ t.next text k i [],
      NoRun text (v.note (visitKey text (t.number, i))) a)
    {th : Thread} (hth : th.Sound text p) {e : Nat} {u : Trail}
    (h : Run text th.todo th.place e u) (hu : Avoids text v u) :
    (t.number, i) ∉ u.steps ∧
    Avoids text (v.note (visitKey text (t.number, i))) u := by
  have hnot : (t.number, i) ∉ u.steps := by
    intro hmem
    obtain ⟨a, ha, w, hw, hnot, hsub⟩ := h.after_last hp hs hth hmem
    have hplace := hw.place_le (Task.next_place ha hs.place)
    exact hno a ha e w hw
      ((Avoids.note hs.place hplace).mpr ⟨hnot, fun s hs' => hu s (hsub s hs')⟩)
  exact ⟨hnot, (Avoids.note hs.place (h.place_le hth.place)).mpr ⟨hnot, hu⟩⟩

theorem NoRun.of_note (hs : Thread.Sound text p ⟨t :: k, i, ms⟩)
    (hno : ∀ a ∈ t.next text k i [],
      NoRun text (v.note (visitKey text (t.number, i))) a)
    {th : Thread} (hth : th.Sound text p)
    (h : NoRun text (v.note (visitKey text (t.number, i))) th) :
    NoRun text v th := by
  intro e u hr hu
  exact h e u hr (Avoids.note_of_noRun hp hs hno hth hr hu).2

theorem NoRun.self (hs : Thread.Sound text p ⟨t :: k, i, ms⟩)
    (hno : ∀ a ∈ t.next text k i [],
      NoRun text (v.note (visitKey text (t.number, i))) a) :
    NoRun text v ⟨t :: k, i, ms⟩ := by
  intro e u hr hu
  obtain ⟨a, w, -, -, hsteps⟩ := hr.cons_inv
  refine (Avoids.note_of_noRun hp hs hno hs hr hu).1 ?_
  rw [hsteps]
  exact List.mem_cons_self

theorem Best.of_note (hs : Thread.Sound text p ⟨t :: k, i, ms⟩)
    (hno : ∀ a ∈ t.next text k i [],
      NoRun text (v.note (visitKey text (t.number, i))) a)
    {th : Thread} (hth : th.Sound text p) {e : Nat} {u : Trail}
    (h : Best text (v.note (visitKey text (t.number, i))) th e u) :
    Best text v th e u := by
  refine ⟨h.run, ?_, h.direct, ?_⟩
  · exact ((Avoids.note hs.place (h.run.place_le hth.place)).mp h.avoids).2
  · intro e' u' hr hu hd
    exact h.best e' u' hr (Avoids.note_of_noRun hp hs hno hth hr hu).2 hd

end

/-- A step has no way to go on, or one, or two. -/
theorem Task.next_cases (text : Array Char)
    (t : Task) (k : List Task) (i : Nat) :
    t.next text k i [] = [] ∨ (∃ a, t.next text k i [] = [a]) ∨
      ∃ a b, t.next text k i [] = [a, b] := by
  cases t with
  | close n g => exact .inr (.inl ⟨_, rfl⟩)
  | again n greedy p => cases greedy <;> exact .inr (.inr ⟨_, _, rfl⟩)
  | run p =>
      cases p with
      | one n s =>
          simp only [Task.next]
          split
          · exact .inr (.inl ⟨_, rfl⟩)
          · exact .inl rfl
      | look n a =>
          simp only [Task.next]
          split
          · exact .inr (.inl ⟨_, rfl⟩)
          · exact .inl rfl
      | alt n p q => exact .inr (.inr ⟨_, _, rfl⟩)
      | star n greedy p => cases greedy <;> exact .inr (.inr ⟨_, _, rfl⟩)
      | empty | group | seq | plus => exact .inr (.inl ⟨_, rfl⟩)

theorem Task.next_marks_length (text : Array Char)
    (t : Task) (k : List Task) (i : Nat) :
    ∀ a ∈ t.next text k i [], a.marks.length ≤ 1 := by
  cases t with
  | close n g => simp [Task.next]
  | again n greedy p => cases greedy <;> simp [Task.next]
  | run p =>
      cases p with
      | one n s =>
          simp only [Task.next]
          split <;> simp
      | look n a =>
          simp only [Task.next]
          split <;> simp
      | star n greedy p => cases greedy <;> simp [Task.next]
      | empty | group | seq | alt | plus => simp [Task.next]

section

variable {text : Array Char} {v : Visits} {t : Task} {k : List Task}
  {i : Nat} {ms : Marks}

/-- A direct run that avoids the visits goes on, after its first step, as a
direct run that avoids that step as well. -/
theorem Avoids.tail (hi : i ≤ text.size) {a : Thread}
    (ha : a ∈ t.next text k i []) {e : Nat}
    {w : Trail} (hw : Run text a.todo a.place e w) {c : List Bool} :
    Avoids text v (⟨[(t.number, i)], c, a.marks⟩ ++ w) ∧
        (⟨[(t.number, i)], c, a.marks⟩ ++ w : Trail).Direct ↔
      v.isNew (visitKey text (t.number, i)) = true ∧
        Avoids text (v.note (visitKey text (t.number, i))) w ∧ w.Direct := by
  have hiff := Avoids.note (v := v) (s := (t.number, i)) hi
    (hw.place_le (Task.next_place ha hi))
  constructor
  · rintro ⟨hu, hd⟩
    have hd' := List.nodup_cons.mp hd
    exact ⟨hu _ List.mem_cons_self,
      hiff.mpr ⟨hd'.1, fun s hs => hu s (List.mem_cons_of_mem _ hs)⟩, hd'.2⟩
  · rintro ⟨hnew, hu, hd⟩
    obtain ⟨hnot, hu⟩ := hiff.mp hu
    refine ⟨?_, List.nodup_cons.mpr ⟨hnot, hd⟩⟩
    intro s hs
    rcases List.mem_cons.mp hs with rfl | hs
    · exact hnew
    · exact hu s hs

variable (hi : i ≤ text.size)
  (hnew : v.isNew (visitKey text (t.number, i)) = true)

include hi hnew

theorem Best.only {a : Thread} {e : Nat} {w : Trail}
    (hn : t.next text k i [] = [a])
    (h : Best text (v.note (visitKey text (t.number, i))) a e w) :
    Best text v ⟨t :: k, i, ms⟩ e (⟨[(t.number, i)], [], a.marks⟩ ++ w) := by
  have ha : a ∈ t.next text k i [] := by rw [hn]; simp
  obtain ⟨hav, hd⟩ :=
    (Avoids.tail hi ha h.run (c := [])).mpr ⟨hnew, h.avoids, h.direct⟩
  refine ⟨.only hn h.run, hav, hd, ?_⟩
  intro e' u' hr hu' hd'
  obtain ⟨w', hw', rfl⟩ := hr.only_inv hn
  obtain ⟨-, hav', hdir'⟩ := (Avoids.tail hi ha hw').mp ⟨hu', hd'⟩
  rcases h.best e' w' hw' hav' hdir' with ⟨rfl, rfl⟩ | hb
  · exact .inl ⟨rfl, rfl⟩
  · exact .inr hb

theorem Best.first {a b : Thread} {e : Nat} {w : Trail}
    (hn : t.next text k i [] = [a, b])
    (h : Best text (v.note (visitKey text (t.number, i))) a e w) :
    Best text v ⟨t :: k, i, ms⟩ e
      (⟨[(t.number, i)], [false], a.marks⟩ ++ w) := by
  have ha : a ∈ t.next text k i [] := by rw [hn]; simp
  obtain ⟨hav, hd⟩ :=
    (Avoids.tail hi ha h.run (c := [false])).mpr ⟨hnew, h.avoids, h.direct⟩
  refine ⟨.first hn h.run, hav, hd, ?_⟩
  intro e' u' hr hu' hd'
  rcases hr.choice_inv hn with ⟨w', hw', rfl⟩ | ⟨w', hw', rfl⟩
  · obtain ⟨-, hav', hdir'⟩ := (Avoids.tail hi ha hw').mp ⟨hu', hd'⟩
    rcases h.best e' w' hw' hav' hdir' with ⟨rfl, rfl⟩ | hb
    · exact .inl ⟨rfl, rfl⟩
    · exact .inr (.same false hb)
  · exact .inr (.fork _ _)

theorem Best.second {a b : Thread} {e : Nat} {w : Trail}
    (hn : t.next text k i [] = [a, b])
    (hno : NoRun text (v.note (visitKey text (t.number, i))) a)
    (h : Best text (v.note (visitKey text (t.number, i))) b e w) :
    Best text v ⟨t :: k, i, ms⟩ e
      (⟨[(t.number, i)], [true], b.marks⟩ ++ w) := by
  have ha : a ∈ t.next text k i [] := by rw [hn]; simp
  have hb : b ∈ t.next text k i [] := by rw [hn]; simp
  obtain ⟨hav, hd⟩ :=
    (Avoids.tail hi hb h.run (c := [true])).mpr ⟨hnew, h.avoids, h.direct⟩
  refine ⟨.second hn h.run, hav, hd, ?_⟩
  intro e' u' hr hu' hd'
  rcases hr.choice_inv hn with ⟨w', hw', rfl⟩ | ⟨w', hw', rfl⟩
  · obtain ⟨-, hav', -⟩ := (Avoids.tail hi ha hw').mp ⟨hu', hd'⟩
    exact absurd hav' (hno e' w' hw')
  · obtain ⟨-, hav', hdir'⟩ := (Avoids.tail hi hb hw').mp ⟨hu', hd'⟩
    rcases h.best e' w' hw' hav' hdir' with ⟨rfl, rfl⟩ | hb
    · exact .inl ⟨rfl, rfl⟩
    · exact .inr (.same true hb)

/-- The best run of the first thread that has one, of those that come from a
step, is the best run of the thread that took the step. -/
theorem Best.of_next {front back : List Thread} {th : Thread} {e : Nat}
    {w : Trail} (hn : t.next text k i ms = front ++ th :: back)
    (hno : ∀ a ∈ front, NoRun text (v.note (visitKey text (t.number, i))) a)
    (h : Best text (v.note (visitKey text (t.number, i))) th e w) :
    ∃ u, Best text v ⟨t :: k, i, ms⟩ e u ∧
      w.marks.reverse ++ th.marks = u.marks.reverse ++ ms := by
  have hmarks : ∀ (c : List Bool) (a : Thread), a.marks.length ≤ 1 →
      w.marks.reverse ++ (a.marks ++ ms) =
        (⟨[(t.number, i)], c, a.marks⟩ ++ w : Trail).marks.reverse ++ ms := by
    intro c a ha
    have hrev : a.marks.reverse = a.marks := by
      rcases hm : a.marks with _ | ⟨x, _ | ⟨y, l⟩⟩
      · rfl
      · rfl
      · rw [hm] at ha
        simp at ha
    rw [Trail.marks_append, List.reverse_append, hrev, List.append_assoc]
  have hlen : ∀ a ∈ t.next text k i [], a.marks.length ≤ 1 :=
    Task.next_marks_length text t k i
  rw [Task.next_marks] at hn
  rcases t.next_cases text k i with hc | ⟨a, hc⟩ | ⟨a, b, hc⟩
  · rw [hc] at hn
    simp at hn
  · rw [hc] at hn hlen
    rcases front with _ | ⟨x, front⟩
    · simp only [List.map_cons, List.map_nil, List.nil_append,
        List.cons.injEq] at hn
      obtain ⟨rfl, rfl⟩ := hn
      exact ⟨_, .only hi hnew hc ⟨h.run, h.avoids, h.direct, h.best⟩,
        hmarks _ a (hlen a (by simp))⟩
    · simp at hn
  · rw [hc] at hn hlen
    rcases front with _ | ⟨x, _ | ⟨y, front⟩⟩
    · simp only [List.map_cons, List.map_nil, List.nil_append,
        List.cons.injEq] at hn
      obtain ⟨rfl, rfl⟩ := hn
      exact ⟨_, .first hi hnew hc ⟨h.run, h.avoids, h.direct, h.best⟩,
        hmarks _ a (hlen a (by simp))⟩
    · simp only [List.map_cons, List.map_nil, List.cons_append, List.nil_append,
        List.cons.injEq] at hn
      obtain ⟨rfl, rfl, rfl⟩ := hn
      have hnoa : NoRun text (v.note (visitKey text (t.number, i))) a :=
        hno ⟨a.todo, a.place, a.marks ++ ms⟩ List.mem_cons_self
      exact ⟨_, .second hi hnew hc hnoa ⟨h.run, h.avoids, h.direct, h.best⟩,
        hmarks _ b (hlen b (by simp))⟩
    · simp at hn

end

section

variable {text : Array Char} {v : Visits} {rest : List Thread}
  {answer : Option Marks}

/-- A thread without a run can be passed over. -/
theorem Finds.cons_of_noRun {th : Thread}
    (hno : NoRun text v th) (h : Finds text v rest answer) :
    Finds text v (th :: rest) answer := by
  cases answer with
  | none =>
      intro th' hth'
      rcases List.mem_cons.mp hth' with rfl | hth'
      · exact hno
      · exact h th' hth'
  | some marks =>
      obtain ⟨front, th₁, back, e, u, rfl, hfront, hbest, hmarks⟩ := h
      refine ⟨th :: front, th₁, back, e, u, rfl, ?_, hbest, hmarks⟩
      intro th' hth'
      rcases List.mem_cons.mp hth' with rfl | hth'
      · exact hno
      · exact hfront th' hth'

/-- The answer comes from the threads in front, or those have no run and it
comes from the others. -/
theorem Finds.append_cases {l : List Thread}
    (h : Finds text v (l ++ rest) answer) :
    ((∀ a ∈ l, NoRun text v a) ∧ Finds text v rest answer) ∨
      ∃ front th back e u, l = front ++ th :: back ∧
      (∀ a ∈ front, NoRun text v a) ∧
        Best text v th e u ∧ answer = some (u.marks.reverse ++ th.marks) := by
  cases answer with
  | none =>
      exact .inl ⟨fun a ha => h a (List.mem_append_left _ ha),
        fun th hth => h th (List.mem_append_right _ hth)⟩
  | some marks =>
      obtain ⟨front, th, back, e, u, heq, hfront, hbest, rfl⟩ := h
      rcases List.append_eq_append_iff.mp heq with ⟨l', rfl, hrest⟩
        | ⟨l', hl, hrest⟩
      · exact .inl ⟨fun a ha => hfront a (List.mem_append_left _ ha),
          l', th, back, e, u, hrest,
          fun a ha => hfront a (List.mem_append_right _ ha), hbest, rfl⟩
      · cases l' with
        | nil =>
            rw [List.append_nil] at hl
            exact .inl ⟨fun a ha => hfront a (by rwa [← hl]), [], th, back, e,
              u, hrest.symm, fun a ha => absurd ha List.not_mem_nil, hbest, rfl⟩
        | cons x l' =>
            obtain ⟨rfl, -⟩ := List.cons.inj hrest
            exact .inr ⟨front, th, l', e, u, hl, hfront, hbest, rfl⟩

/-- A thread has no run that avoids the visits if it stands where there was a
visit. -/
theorem NoRun.of_visited {t : Task} {k : List Task} {i : Nat} {ms : Marks}
    (h : ¬ v.isNew (visitKey text (t.number, i)) = true) :
    NoRun text v ⟨t :: k, i, ms⟩ := by
  intro e u hr hu
  obtain ⟨a, w, -, -, hsteps⟩ := hr.cons_inv
  exact h (hu _ (by rw [hsteps]; exact List.mem_cons_self))

end

section

variable {text : Array Char} {p : Plan} (hp : ∃ m, Numbered 0 m (p.stations []))

include hp

/-- When a step leads nowhere, noting it makes no difference to what is found
among other threads. -/
theorem Finds.of_note {v : Visits} {t : Task} {k : List Task} {i : Nat}
    {ms : Marks} {rest : List Thread} {answer : Option Marks}
    (hs : Thread.Sound text p ⟨t :: k, i, ms⟩) (hno : ∀ a ∈ t.next text k i [],
      NoRun text (v.note (visitKey text (t.number, i))) a)
    (hrest : ∀ th ∈ rest, Thread.Sound text p th)
    (h : Finds text (v.note (visitKey text (t.number, i))) rest answer) :
    Finds text v rest answer := by
  cases answer with
  | none =>
      exact fun th hth => NoRun.of_note hp hs hno (hrest th hth) (h th hth)
  | some marks =>
      obtain ⟨front, th, back, e, u, rfl, hfront, hbest, rfl⟩ := h
      refine ⟨front, th, back, e, u, rfl, fun th' hth' => ?_,
        Best.of_note hp hs hno (hrest th (by simp)) hbest, rfl⟩
      exact NoRun.of_note hp hs hno (hrest th' (List.mem_append_left _ hth'))
        (hfront th' hth')

/-- Taking a step: what is found among the threads that come from it and the
others is found among the thread that took it and the others. -/
theorem Finds.step {v : Visits} {t : Task} {k : List Task} {i : Nat}
    {ms : Marks} {rest : List Thread} {answer : Option Marks}
    (hs : ∀ th ∈ ⟨t :: k, i, ms⟩ :: rest, Thread.Sound text p th)
    (hnew : v.isNew (visitKey text (t.number, i)) = true)
    (h : Finds text (v.note (visitKey text (t.number, i)))
      (t.next text k i ms ++ rest) answer) :
    Finds text v (⟨t :: k, i, ms⟩ :: rest) answer := by
  have hhead := hs _ List.mem_cons_self
  rcases h.append_cases with ⟨hno, hfinds⟩
    | ⟨front, th, back, e, u, hl, hfront, hbest, rfl⟩
  · have hnext : ∀ a ∈ t.next text k i [],
        NoRun text (v.note (visitKey text (t.number, i))) a := by
      intro a ha
      have hmem : (⟨a.todo, a.place, a.marks ++ ms⟩ : Thread) ∈
          t.next text k i ms := by
        rw [Task.next_marks]
        exact List.mem_map.mpr ⟨a, ha, rfl⟩
      exact hno ⟨a.todo, a.place, a.marks ++ ms⟩ hmem
    have hrest : ∀ th ∈ rest, Thread.Sound text p th :=
      fun th hth => hs th (List.mem_cons_of_mem _ hth)
    exact (Finds.of_note hp hhead hnext hrest hfinds).cons_of_noRun
      (NoRun.self hp hhead hnext)
  · obtain ⟨w, hw, hmarks⟩ := Best.of_next hhead.place hnew hl hfront hbest
    exact ⟨[], ⟨t :: k, i, ms⟩, rest, e, w, rfl,
      fun th' hth' => absurd hth' List.not_mem_nil, hw, hmarks⟩

/-- The answer of the search: the preferred direct run of the first thread that
has a run. -/
theorem explore_finds {v : Visits} {stack : List Thread}
    (hb : ∀ k ∈ p.stations [], (headNumber k + 1) * (text.size + 1) ≤ v.bound)
    (hs : ∀ th ∈ stack, Thread.Sound text p th) :
    Finds text v stack (explore text v stack) := by
  fun_induction explore text v stack with
  | case1 => exact fun th hth => absurd hth List.not_mem_nil
  | case2 v th rest htodo =>
      refine ⟨[], th, rest, th.place, {}, rfl,
        fun th' hth' => absurd hth' List.not_mem_nil, ?_, rfl⟩
      refine ⟨by rw [htodo]; exact .done _,
        fun s hs => absurd hs List.not_mem_nil, List.nodup_nil, ?_⟩
      intro e u hr _ _
      rw [htodo] at hr
      exact .inl hr.done_inv
  | case3 v th rest t k htodo key hallow ih =>
      obtain ⟨todo, i, ms⟩ := th
      cases htodo
      rw [Visits.allows, Bool.and_eq_true] at hallow
      refine Finds.step hp hs hallow.2 (ih hb ?_)
      intro th hth
      rcases List.mem_append.mp hth with hth | hth
      · exact (hs _ List.mem_cons_self).next hth
      · exact hs th (List.mem_cons_of_mem _ hth)
  | case4 v th rest t k htodo key hallow ih =>
      have hhead := hs th List.mem_cons_self
      obtain ⟨todo, i, ms⟩ := th
      cases htodo
      have hold : ¬ v.isNew (visitKey text (t.number, i)) = true := by
        intro hnew
        refine hallow ?_
        have hbound := hb _ (hhead.todo.resolve_left (List.cons_ne_nil _ _))
        have hplace : i ≤ text.size := hhead.place
        rw [Visits.allows, Bool.and_eq_true, decide_eq_true_eq]
        refine ⟨?_, hnew⟩
        rw [headNumber, Nat.add_mul] at hbound
        show t.number * (text.size + 1) + i < v.bound
        omega
      exact (ih hb fun th' hth' => hs th'
        (List.mem_cons_of_mem _ hth')).cons_of_noRun (NoRun.of_visited hold)

end

end Codemod.Pattern
