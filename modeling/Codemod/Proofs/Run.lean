import Codemod.Proofs.Way

/-!
# Runs of a list of tasks

The search does not build ways; it keeps a list of tasks and takes them one
after the other. A run is what becomes of such a list, one step for each task
that is taken, and its trail is put together like the trail of a way.
`run_iff_way` says that running a plan and what is left behind it is the same
as a way through the plan followed by a run of what is left: the small steps of
the search and the large steps of `Way` describe the same matches.
-/

namespace Codemod.Pattern

/-- The marks of a thread are those made by the step, in front of those it
had. -/
theorem Task.next_marks (text : Array Char) (t : Task)
    (k : List Task) (i : Nat) (marks : Marks) :
    t.next text k i marks = (t.next text k i []).map fun th =>
        { th with marks := th.marks ++ marks } := by
  cases t with
  | run p =>
      cases p with
      | one _ s =>
          simp only [Task.next]
          split <;> rfl
      | look _ a =>
          simp only [Task.next]
          split <;> rfl
      | star n greedy p => cases greedy <;> rfl
      | empty | group | seq | alt | plus => rfl
  | close n g => rfl
  | again n greedy p => cases greedy <;> rfl

/-- A run of a list of tasks from a place to the end of the list, with its
trail. A step with two ways to go on is a choice between them. -/
inductive Run (text : Array Char) : List Task → Nat → Nat → Trail → Prop where
  | done (i : Nat) : Run text [] i i {}
  | only {t : Task} {k : List Task} {i j : Nat} {a : Thread} {u : Trail}
      (hn : t.next text k i [] = [a]) (h : Run text a.todo a.place j u) :
      Run text (t :: k) i j (⟨[(t.number, i)], [], a.marks⟩ ++ u)
  | first {t : Task} {k : List Task} {i j : Nat} {a b : Thread} {u : Trail}
      (hn : t.next text k i [] = [a, b]) (h : Run text a.todo a.place j u) :
      Run text (t :: k) i j (⟨[(t.number, i)], [false], a.marks⟩ ++ u)
  | second {t : Task} {k : List Task} {i j : Nat} {a b : Thread} {u : Trail}
      (hn : t.next text k i [] = [a, b]) (h : Run text b.todo b.place j u) :
      Run text (t :: k) i j (⟨[(t.number, i)], [true], b.marks⟩ ++ u)

theorem Run.done_inv {text : Array Char} {i j : Nat} {u : Trail}
    (h : Run text [] i j u) :
    j = i ∧ u = {} := by
  cases h
  exact ⟨rfl, rfl⟩

/-! The two tasks that decide on another round, `run` of "any number" and
`again`, list their ways to go on alike, the preferred one first. So which
constructor a run takes there depends on greed alone, and the two lemmas below
are all that is needed of it. -/

section

variable {text : Array Char} {t : Task} {k : List Task} {i e : Nat} {u : Trail}
  {greedy : Bool} {a : Thread}

/-- A run that decides against another round. -/
theorem Run.leave
    (hn : t.next text k i [] =
      if greedy then [a, ⟨k, i, []⟩] else [⟨k, i, []⟩, a])
    (h : Run text k i e u) :
    Run text (t :: k) i e (⟨[(t.number, i)], [greedy], []⟩ ++ u) := by
  cases greedy with
  | false => exact .first (a := ⟨k, i, []⟩) hn h
  | true => exact .second (b := ⟨k, i, []⟩) hn h

/-- A run that decides on another round. -/
theorem Run.enter (hn : t.next text k i [] = if greedy then [a, ⟨k, i, []⟩]
      else [⟨k, i, []⟩, a]) (h : Run text a.todo a.place e u) :
    Run text (t :: k) i e (⟨[(t.number, i)], [!greedy], a.marks⟩ ++ u) := by
  cases greedy with
  | false => exact .second (b := a) hn h
  | true => exact .first (a := a) hn h

end

/-- What a task does to the place: a plan is passed on a way, a group ends
where it is, and the end of a round is the choice of "any number". -/
def Task.Passes (text : Array Char) : Task → Nat → Nat → Trail → Prop
  | .run p, i, j, t => Way text p i j t
  | .close n g, i, j, t => j = i ∧ t = .mark n i (2 * g + 1)
  | .again n greedy p, i, j, t => Way text (.star n greedy p) i j t

/-- A way through a plan goes before every run of what is left. The end of a
round is carried along: a way through "any number" is also a way to go on after
a round. What is left to do changes along the induction: behind a first part it
begins with the second one. -/
theorem Way.run_both {text : Array Char} {p : Plan} {i j : Nat} {t : Trail}
    (h : Way text p i j t) {k : List Task} {e : Nat} {u : Trail}
    (hk : Run text k j e u) :
    Run text (.run p :: k) i e (t ++ u) ∧ ∀ n greedy q, p = .star n greedy q →
      Run text (.again n greedy q :: k) i e (t ++ u) := by
  induction h generalizing k e u with
  | empty n i => exact ⟨.only (a := ⟨k, i, []⟩) rfl hk, by simp⟩
  | @one s c i n hc hs =>
      have hn : (Task.run (.one n s)).next text k i [] = [⟨k, i + 1, []⟩] := by
        simp [Task.next, hc, hs]
      exact ⟨.only hn hk, by simp⟩
  | @look a i n ha =>
      have hn : (Task.run (.look n a)).next text k i [] = [⟨k, i, []⟩] := by
        simp [Task.next, ha]
      exact ⟨.only hn hk, by simp⟩
  | @group p i j t n g _ ih =>
      have hclose : Run text (.close (n + 1) g :: k) j e
          (.mark (n + 1) j (2 * g + 1) ++ u) :=
        .only (a := ⟨k, j, [(2 * g + 1, j)]⟩) rfl hk
      refine ⟨?_, by simp⟩
      rw [Trail.append_assoc, Trail.append_assoc]
      exact .only (a := ⟨.run p :: .close (n + 1) g :: k, i, [(2 * g, i)]⟩)
        rfl (ih hclose).1
  | @seq p q i j l t u' n _ _ ih ih' =>
      refine ⟨?_, by simp⟩
      rw [Trail.append_assoc, Trail.append_assoc]
      exact .only (a := ⟨.run p :: .run q :: k, i, []⟩) rfl (ih (ih' hk).1).1
  | @altLeft p q i j t n _ ih =>
      refine ⟨?_, by simp⟩
      rw [Trail.append_assoc]
      exact .first (a := ⟨.run p :: k, i, []⟩)
        (b := ⟨.run q :: k, i, []⟩) rfl (ih hk).1
  | @altRight p q i j t n _ ih =>
      refine ⟨?_, by simp⟩
      rw [Trail.append_assoc]
      exact .second (a := ⟨.run p :: k, i, []⟩)
        (b := ⟨.run q :: k, i, []⟩) rfl (ih hk).1
  | stop n i greedy p =>
      refine ⟨.leave rfl hk, ?_⟩
      intro n' greedy' q heq
      cases heq
      exact .leave rfl hk
  | @round p i j l t u' n greedy _ _ ih ih' =>
      rw [Trail.append_assoc, Trail.append_assoc]
      refine ⟨.enter (a := ⟨.run p :: .run (.star n greedy p) :: k, i, []⟩) rfl
        (ih (ih' hk).1).1, ?_⟩
      intro n' greedy' q heq
      cases heq
      exact .enter (a := ⟨.run p :: .again n greedy p :: k, i, []⟩) rfl
        (ih ((ih' hk).2 n greedy p rfl)).1
  | @plus p i j l t u' n greedy _ _ ih ih' =>
      refine ⟨?_, by simp⟩
      rw [Trail.append_assoc, Trail.append_assoc]
      exact .only (a := ⟨.run p :: .again (n + 1) greedy p :: k, i, []⟩) rfl
        (ih ((ih' hk).2 (n + 1) greedy p rfl)).1

/-- A run that does not begin with a choice, taken apart at its first step. -/
theorem Run.only_inv {text : Array Char} {t : Task}
    {k : List Task} {i e : Nat} {a : Thread}
    {v : Trail} (h : Run text (t :: k) i e v) (hn : t.next text k i [] = [a]) :
    ∃ u, Run text a.todo a.place e u ∧
    v = ⟨[(t.number, i)], [], a.marks⟩ ++ u := by
  cases h with
  | only hn' h =>
      rw [hn] at hn'
      cases hn'
      exact ⟨_, h, rfl⟩
  | first hn' _ | second hn' _ =>
      rw [hn] at hn'
      cases hn'

/-- A run that begins with a choice, taken apart at its first step. -/
theorem Run.choice_inv {text : Array Char} {t : Task}
    {k : List Task} {i e : Nat} {a b : Thread} {v : Trail}
    (h : Run text (t :: k) i e v) (hn : t.next text k i [] = [a, b]) :
    (∃ u, Run text a.todo a.place e u ∧
      v = ⟨[(t.number, i)], [false], a.marks⟩ ++ u) ∨
      ∃ u, Run text b.todo b.place e u ∧
      v = ⟨[(t.number, i)], [true], b.marks⟩ ++ u := by
  cases h with
  | only hn' _ =>
      rw [hn] at hn'
      cases hn'
  | first hn' h =>
      rw [hn] at hn'
      cases hn'
      exact .inl ⟨_, h, rfl⟩
  | second hn' h =>
      rw [hn] at hn'
      cases hn'
      exact .inr ⟨_, h, rfl⟩

/-- A run that begins with the decision about another round, taken apart at its
first step. -/
theorem Run.decide_inv {text : Array Char} {t : Task} {k : List Task}
    {i e : Nat} {v : Trail} {greedy : Bool} {round : Thread}
    (hn : t.next text k i [] = if greedy then [round, ⟨k, i, []⟩]
      else [⟨k, i, []⟩, round]) (h : Run text (t :: k) i e v) :
    (∃ u, Run text k i e u ∧ v = ⟨[(t.number, i)], [greedy], []⟩ ++ u) ∨
      ∃ u, Run text round.todo round.place e u ∧
        v = ⟨[(t.number, i)], [!greedy], round.marks⟩ ++ u := by
  cases greedy with
  | false => exact h.choice_inv hn
  | true => exact (h.choice_inv hn).symm

/-- A task that nothing can become of has no run. -/
theorem Run.next_ne_nil {text : Array Char} {t : Task}
    {k : List Task} {i e : Nat} {v : Trail}
    (h : Run text (t :: k) i e v) : t.next text k i [] ≠ [] := by
  cases h with
  | only hn _ | first hn _ | second hn _ =>
      rw [hn]
      exact List.cons_ne_nil _ _

/-- A run with this trail passes its first task before it runs the others. -/
def SplitsFirst (text : Array Char) (t : Task) (k : List Task) (i e : Nat)
    (v : Trail) : Prop :=
  ∃ j a b, t.Passes text i j a ∧ Run text k j e b ∧ v = a ++ b

/-- All runs of at most `m` steps pass their first task before the others. -/
def Splits (text : Array Char) (m : Nat) : Prop :=
  ∀ {t : Task} {k : List Task} {i e : Nat} {v : Trail}, v.steps.length ≤ m →
    Run text (t :: k) i e v → SplitsFirst text t k i e v

/-- The first two tasks of a run, one after the other. -/
theorem Splits.two {text : Array Char} {m : Nat}
    (ih : Splits text m) {t s : Task} {k : List Task} {i e : Nat} {v : Trail}
    (hm : v.steps.length ≤ m) (h : Run text (t :: s :: k) i e v) :
    ∃ j l a b c, t.Passes text i j a ∧ s.Passes text j l b ∧ Run text k l e c ∧
      v = a ++ b ++ c := by
  obtain ⟨j, a, w, ha, hw, rfl⟩ := ih hm h
  have hm' : w.steps.length ≤ m := by
    simp only [Trail.steps_append, List.length_append] at hm
    omega
  obtain ⟨l, b, c, hb, hc, rfl⟩ := ih hm' hw
  exact ⟨j, l, a, b, c, ha, hb, hc, (Trail.append_assoc _ _ _).symm⟩

/-- The choice of another round, for each of the two tasks that make it. -/
theorem Splits.loop {text : Array Char} {m : Nat}
    (ih : Splits text m) {t : Task} {k : List Task}
    {i e n : Nat} {v : Trail} {greedy : Bool} {p : Plan} (hnum : t.number = n)
    (hpass : t.Passes text = Way text (.star n greedy p))
    (hn : t.next text k i [] =
      if greedy then [⟨.run p :: t :: k, i, []⟩, ⟨k, i, []⟩]
      else [⟨k, i, []⟩, ⟨.run p :: t :: k, i, []⟩])
    (hm : v.steps.length ≤ m + 1) (h : Run text (t :: k) i e v) :
    SplitsFirst text t k i e v := by
  rcases h.decide_inv hn with ⟨u, hu, hv⟩ | ⟨u, hu, hv⟩
  · refine ⟨i, .choice n i greedy, u, ?_, hu, ?_⟩
    · rw [hpass]
      exact .stop n i greedy p
    · rw [hv, hnum]
      rfl
  · have hlen : u.steps.length ≤ m := by
      rw [hv] at hm
      simp only [Trail.steps_append, List.length_append, List.length_cons] at hm
      omega
    obtain ⟨j, l, a, b, c, ha, hb, hc, rfl⟩ := ih.two hlen hu
    rw [hpass] at hb
    refine ⟨l, Trail.choice n i (!greedy) ++ a ++ b, c, ?_, hc, ?_⟩
    · rw [hpass]
      exact .round ha hb
    · rw [hv, hnum, Trail.append_assoc, Trail.append_assoc, Trail.append_assoc]
      rfl

/-- A plan of one more step than the runs that are known to split. -/
theorem Splits.run {text : Array Char} {m : Nat}
    (ih : Splits text m) {p : Plan} {k : List Task} {i e : Nat} {v : Trail}
    (hm : v.steps.length ≤ m + 1) (h : Run text (.run p :: k) i e v) :
    SplitsFirst text (.run p) k i e v := by
  have hlen : ∀ {x : Trail} {u : Trail}, v = x ++ u → x.steps.length = 1 →
      u.steps.length ≤ m := by
    intro x u hv hx
    rw [hv, Trail.steps_append, List.length_append] at hm
    omega
  cases p with
  | empty n =>
      obtain ⟨u, hu, rfl⟩ := h.only_inv (a := ⟨k, i, []⟩) rfl
      exact ⟨i, .step n i, u, .empty n i, hu, rfl⟩
  | one n s =>
      by_cases hc : text[i]?.any s.has = true
      · have hn : (Task.run (.one n s)).next text k i [] =
            [⟨k, i + 1, []⟩] := by
          simp only [Task.next, if_pos hc]
        obtain ⟨u, hu, rfl⟩ := h.only_inv hn
        obtain ⟨c, hc, hs⟩ := (Option.any_eq_true _ _).mp hc
        exact ⟨i + 1, .step n i, u, .one n hc hs, hu, rfl⟩
      · exact absurd (by simp only [Task.next, if_neg hc]) h.next_ne_nil
  | look n a =>
      by_cases ha : a.holds (before? text i) text[i]? = true
      · have hn : (Task.run (.look n a)).next text k i [] = [⟨k, i, []⟩] := by
          simp only [Task.next, if_pos ha]
        obtain ⟨u, hu, rfl⟩ := h.only_inv hn
        exact ⟨i, .step n i, u, .look n ha, hu, rfl⟩
      · exact absurd (by simp only [Task.next, if_neg ha]) h.next_ne_nil
  | group n g p =>
      obtain ⟨u, hu, rfl⟩ :=
        h.only_inv (a := ⟨.run p :: .close (n + 1) g :: k, i, [(2 * g, i)]⟩) rfl
      obtain ⟨j, l, a, b, c, ha, ⟨rfl, rfl⟩, hc, rfl⟩ :=
        ih.two (hlen rfl rfl) hu
      refine ⟨l, Trail.mark n i (2 * g) ++ a ++ Trail.mark (n + 1) l
        (2 * g + 1), c, .group n g ha, hc, ?_⟩
      rw [Trail.append_assoc, Trail.append_assoc, Trail.append_assoc]
      rfl
  | seq n p q =>
      obtain ⟨u, hu, rfl⟩ :=
        h.only_inv (a := ⟨.run p :: .run q :: k, i, []⟩) rfl
      obtain ⟨j, l, a, b, c, ha, hb, hc, rfl⟩ := ih.two (hlen rfl rfl) hu
      refine ⟨l, Trail.step n i ++ a ++ b, c, .seq n ha hb, hc, ?_⟩
      rw [Trail.append_assoc, Trail.append_assoc, Trail.append_assoc]
      rfl
  | alt n p q =>
      have hn : (Task.run (.alt n p q)).next text k i [] =
          [⟨.run p :: k, i, []⟩, ⟨.run q :: k, i, []⟩] := rfl
      rcases h.choice_inv hn with ⟨u, hu, rfl⟩ | ⟨u, hu, rfl⟩
      · obtain ⟨j, a, b, ha, hb, rfl⟩ := ih (hlen rfl rfl) hu
        exact ⟨j, Trail.choice n i false ++ a, b, .altLeft n ha, hb,
          (Trail.append_assoc _ _ _).symm⟩
      · obtain ⟨j, a, b, ha, hb, rfl⟩ := ih (hlen rfl rfl) hu
        exact ⟨j, Trail.choice n i true ++ a, b, .altRight n ha, hb,
          (Trail.append_assoc _ _ _).symm⟩
  | star n greedy p => exact ih.loop rfl rfl rfl hm h
  | plus n greedy p =>
      obtain ⟨u, hu, rfl⟩ :=
        h.only_inv (a := ⟨.run p :: .again (n + 1) greedy p :: k, i, []⟩) rfl
      obtain ⟨j, l, a, b, c, ha, hb, hc, rfl⟩ := ih.two (hlen rfl rfl) hu
      refine ⟨l, Trail.step n i ++ a ++ b, c, .plus ha hb, hc, ?_⟩
      rw [Trail.append_assoc, Trail.append_assoc, Trail.append_assoc]
      rfl

/-- Every run passes its first task before it runs the others. The induction is
on the number of steps: a part of a plan is passed in fewer steps than the
plan, and so is another round. -/
theorem Run.splits (text : Array Char) : ∀ m, Splits text m := by
  intro m
  induction m with
  | zero =>
      intro t k i e v hm h
      cases h with
      | only _ _ | first _ _ | second _ _ => simp at hm
  | succ m ih =>
      intro t k i e v hm h
      cases t with
      | run p => exact Splits.run ih hm h
      | again n greedy p => exact Splits.loop ih rfl rfl rfl hm h
      | close n g =>
          obtain ⟨u, hu, rfl⟩ := h.only_inv (a := ⟨k, i, [(2 * g + 1, i)]⟩) rfl
          exact ⟨i, .mark n i (2 * g + 1), u, ⟨rfl, rfl⟩, hu, rfl⟩

/-- A run of a single plan is a way through it. -/
theorem run_iff_way {text : Array Char} {p : Plan} {i j : Nat} {t : Trail} :
    Run text [.run p] i j t ↔ Way text p i j t := by
  constructor
  · intro h
    obtain ⟨l, a, b, hp, hb, rfl⟩ := Run.splits text _ (Nat.le_refl _) h
    obtain ⟨rfl, rfl⟩ := hb.done_inv
    rw [Trail.append_empty]
    exact hp
  · intro h
    have := (h.run_both (.done j)).1
    rwa [Trail.append_empty] at this

end Codemod.Pattern
