import Codemod.Proofs.Run

/-!
# The number of a task tells what is left to do

The search remembers where it has been by the number of its first task and its
place, and forgets the rest of the list. That is sound because the rest can be
told from the number: the lists that can come about are the stations of the
plan, there is one for each number, and each step leads from a station to a
station or to the end.
-/

namespace Codemod.Pattern

/-- The number of the first task of a list. -/
def headNumber : List Task → Nat
  | t :: _ => t.number
  | [] => 0

/-- The lists of tasks that can come about in a plan with `k` left to do after
it. -/
def Plan.stations : Plan → List Task → List (List Task)
  | .empty n, k => [.run (.empty n) :: k]
  | .one n s, k => [.run (.one n s) :: k]
  | .look n a, k => [.run (.look n a) :: k]
  | .group n g p, k =>
    (.run (.group n g p) :: k) :: (.close (n + 1) g :: k) :: p.stations
      (.close (n + 1) g :: k)
  | .seq n p q, k =>
      (.run (.seq n p q) :: k) :: (p.stations (.run q :: k) ++ q.stations k)
  | .alt n p q, k => (.run (.alt n p q) :: k) :: (p.stations k ++ q.stations k)
  | .star n greedy p, k =>
    (.run (.star n greedy p) :: k) :: p.stations (.run (.star n greedy p) :: k)
  | .plus n greedy p, k =>
    (.run (.plus n greedy p) :: k) :: (.again (n + 1) greedy p :: k)
      :: p.stations (.again (n + 1) greedy p :: k)

theorem Plan.run_mem_stations (p : Plan) (k : List Task) :
    .run p :: k ∈ p.stations k := by
  cases p <;> simp [Plan.stations]

/-- Where a repetition can stop or go on, both are ways to go on, whichever is
preferred. -/
theorem mem_round {greedy : Bool} {more stop th : Thread} :
    (th ∈ if greedy then [more, stop] else [stop, more]) ↔
    th = stop ∨ th = more := by
  cases greedy <;> simp [or_comm]

/-- A step from a station of a plan leads to a station of the plan, or behind
it. This is shown for every `k`, since behind a part of the plan there is more
left to do than behind the plan. -/
theorem Plan.next_mem_stations {text : Array Char}
    {p : Plan} {k r : List Task} {t : Task}
    {i : Nat} {marks : Marks} {th : Thread} (h : t :: r ∈ p.stations k)
    (hth : th ∈ t.next text r i marks) :
    th.todo = k ∨ th.todo ∈ p.stations k := by
  induction p generalizing k with
  | empty n =>
      simp only [Plan.stations, List.mem_singleton, List.cons.injEq] at h
      obtain ⟨rfl, rfl⟩ := h
      simp only [Task.next, List.mem_singleton] at hth
      exact .inl (by rw [hth])
  | one n s =>
      simp only [Plan.stations, List.mem_singleton, List.cons.injEq] at h
      obtain ⟨rfl, rfl⟩ := h
      simp only [Task.next] at hth
      split at hth
      · rw [List.mem_singleton] at hth
        exact .inl (by rw [hth])
      · cases hth
  | look n a =>
      simp only [Plan.stations, List.mem_singleton, List.cons.injEq] at h
      obtain ⟨rfl, rfl⟩ := h
      simp only [Task.next] at hth
      split at hth
      · rw [List.mem_singleton] at hth
        exact .inl (by rw [hth])
      · cases hth
  | group n g p ih =>
      simp only [Plan.stations, List.mem_cons, List.cons.injEq] at h ⊢
      rcases h with ⟨rfl, rfl⟩ | ⟨rfl, rfl⟩ | h
      · simp only [Task.next, List.mem_singleton] at hth
        rw [hth]
        exact .inr (.inr (.inr (p.run_mem_stations _)))
      · simp only [Task.next, List.mem_singleton] at hth
        exact .inl (by rw [hth])
      · rcases ih h with heq | hmem
        · exact .inr (.inr (.inl heq))
        · exact .inr (.inr (.inr hmem))
  | seq n p q ihp ihq =>
      simp only [Plan.stations, List.mem_cons, List.mem_append,
        List.cons.injEq] at h ⊢
      rcases h with ⟨rfl, rfl⟩ | h | h
      · simp only [Task.next, List.mem_singleton] at hth
        rw [hth]
        exact .inr (.inr (.inl (p.run_mem_stations _)))
      · rcases ihp h with heq | hmem
        · rw [heq]
          exact .inr (.inr (.inr (q.run_mem_stations _)))
        · exact .inr (.inr (.inl hmem))
      · rcases ihq h with heq | hmem
        · exact .inl heq
        · exact .inr (.inr (.inr hmem))
  | alt n p q ihp ihq =>
      simp only [Plan.stations, List.mem_cons, List.mem_append,
        List.cons.injEq] at h ⊢
      rcases h with ⟨rfl, rfl⟩ | h | h
      · simp only [Task.next, List.mem_cons, List.not_mem_nil, or_false] at hth
        rcases hth with hth | hth
        · rw [hth]
          exact .inr (.inr (.inl (p.run_mem_stations _)))
        · rw [hth]
          exact .inr (.inr (.inr (q.run_mem_stations _)))
      · rcases ihp h with heq | hmem
        · exact .inl heq
        · exact .inr (.inr (.inl hmem))
      · rcases ihq h with heq | hmem
        · exact .inl heq
        · exact .inr (.inr (.inr hmem))
  | star n greedy p ih =>
      simp only [Plan.stations, List.mem_cons, List.cons.injEq] at h ⊢
      rcases h with ⟨rfl, rfl⟩ | h
      · rw [Task.next] at hth
        rcases mem_round.mp hth with rfl | rfl
        · exact .inl rfl
        · exact .inr (.inr (p.run_mem_stations _))
      · rcases ih h with heq | hmem
        · exact .inr (.inl heq)
        · exact .inr (.inr hmem)
  | plus n greedy p ih =>
      simp only [Plan.stations, List.mem_cons, List.cons.injEq] at h ⊢
      rcases h with ⟨rfl, rfl⟩ | ⟨rfl, rfl⟩ | h
      · simp only [Task.next, List.mem_singleton] at hth
        rw [hth]
        exact .inr (.inr (.inr (p.run_mem_stations _)))
      · rw [Task.next] at hth
        rcases mem_round.mp hth with rfl | rfl
        · exact .inl rfl
        · exact .inr (.inr (.inr (p.run_mem_stations _)))
      · rcases ih h with heq | hmem
        · exact .inr (.inr (.inl heq))
        · exact .inr (.inr (.inr hmem))

/-- Some lists whose numbers lie between two bounds, each with a number of its
own. -/
structure Numbered (lo hi : Nat) (l : List (List Task)) : Prop where
  le : lo ≤ hi
  within : ∀ a ∈ l, lo ≤ headNumber a ∧ headNumber a < hi
  distinct : ∀ a ∈ l, ∀ b ∈ l, headNumber a = headNumber b → a = b

theorem Numbered.nil (n : Nat) : Numbered n n [] :=
  ⟨Nat.le_refl n, fun _ h => absurd h List.not_mem_nil,
    fun _ h => absurd h List.not_mem_nil⟩

theorem Numbered.cons {a : List Task} {l : List (List Task)} {lo hi : Nat}
    (ha : headNumber a = lo) (h : Numbered (lo + 1) hi l) :
    Numbered lo hi (a :: l) := by
  have hle := h.le
  refine ⟨by omega, ?_, ?_⟩
  · intro b hb
    rcases List.mem_cons.mp hb with heq | hb
    · rw [heq]
      omega
    · have := h.within b hb
      omega
  · intro b hb c hc heq
    rcases List.mem_cons.mp hb with hb
      | hb <;> rcases List.mem_cons.mp hc with hc | hc
    · rw [hb, hc]
    · have := h.within c hc
      rw [hb] at heq
      omega
    · have := h.within b hb
      rw [hc] at heq
      omega
    · exact h.distinct b hb c hc heq

theorem Numbered.append {l l' : List (List Task)} {lo mid hi : Nat}
    (h : Numbered lo mid l) (h' : Numbered mid hi l') :
    Numbered lo hi (l ++ l') := by
  have hle := h.le
  have hle' := h'.le
  refine ⟨by omega, ?_, ?_⟩
  · intro b hb
    rcases List.mem_append.mp hb with hb | hb
    · have := h.within b hb
      omega
    · have := h'.within b hb
      omega
  · intro b hb c hc heq
    rcases List.mem_append.mp hb with hb
      | hb <;> rcases List.mem_append.mp hc with hc | hc
    · exact h.distinct b hb c hc heq
    · have := h.within b hb
      have := h'.within c hc
      omega
    · have := h.within c hc
      have := h'.within b hb
      omega
    · exact h'.distinct b hb c hc heq

/-- The plan of an expression has one station for each of its numbers. -/
theorem Plan.numbered_stations (r : Regex) : ∀ (n : Nat) (k : List Task),
    Numbered n (ofRegex n r).2 ((ofRegex n r).1.stations k) := by
  induction r with
  | empty => exact fun n k => .cons rfl (.nil (n + 1))
  | one s => exact fun n k => .cons rfl (.nil (n + 1))
  | look a => exact fun n k => .cons rfl (.nil (n + 1))
  | group i r ih => exact fun n k => .cons rfl (.cons rfl (ih (n + 2) _))
  | seq r s ihr ihs =>
      exact fun n k => .cons rfl (.append (ihr (n + 1) _) (ihs _ k))
  | alt r s ihr ihs =>
      exact fun n k => .cons rfl (.append (ihr (n + 1) k) (ihs _ k))
  | star greedy r ih => exact fun n k => .cons rfl (ih (n + 1) _)
  | plus greedy r ih => exact fun n k => .cons rfl (.cons rfl (ih (n + 2) _))

end Codemod.Pattern
