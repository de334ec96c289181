import Codemod.Proofs.Choice
import Codemod.Proofs.Capture
import Codemod.Proofs.Enumerate

/-!
# Ways that are direct anyway

Of the ways through a plan only the direct ones are compared. But a way can
come back to a step at the same place only by a round of a repetition that has
not moved on. In a solid expression, whose rounds all move on, every way is
direct (`Way.direct`), and so the first match of a pattern is preferred to
everything that the expression passes from its place (`First.chosen`).
-/

namespace Codemod.Pattern

/-- The numbers of the steps of a plan are the ones from `n` on and below
`m`. -/
inductive Plan.Spans : Plan → Nat → Nat → Prop where
  | empty (n : Nat) : Spans (.empty n) n (n + 1)
  | one (n : Nat) (s : CharSet) : Spans (.one n s) n (n + 1)
  | look (n : Nat) (a : Anchor) : Spans (.look n a) n (n + 1)
  | group {p : Plan} {n m : Nat} (g : Nat) (h : Spans p (n + 2) m) :
      Spans (.group n g p) n m
  | seq {p q : Plan} {n m k : Nat} (h : Spans p (n + 1) m) (h' : Spans q m k) :
      Spans (.seq n p q) n k
  | alt {p q : Plan} {n m k : Nat} (h : Spans p (n + 1) m) (h' : Spans q m k) :
      Spans (.alt n p q) n k
  | star {p : Plan} {n m : Nat} (greedy : Bool) (h : Spans p (n + 1) m) :
      Spans (.star n greedy p) n m
  | plus {p : Plan} {n m : Nat} (greedy : Bool) (h : Spans p (n + 2) m) :
      Spans (.plus n greedy p) n m

theorem Plan.spans_ofRegex (r : Regex) (n : Nat) :
    (Plan.ofRegex n r).1.Spans n (Plan.ofRegex n r).2 := by
  induction r generalizing n with
  | empty => exact .empty n
  | one s => exact .one n s
  | look a => exact .look n a
  | group g r ih => exact .group g (ih _)
  | seq r s ihr ihs => exact .seq (ihr _) (ihs _)
  | alt r s ihr ihs => exact .alt (ihr _) (ihs _)
  | star greedy r ih => exact .star greedy (ih _)
  | plus greedy r ih => exact .plus greedy (ih _)

theorem Plan.Spans.lt {p : Plan} {n m : Nat} (h : p.Spans n m) : n < m := by
  induction h <;> omega

section

variable {text : Array Char} {p : Plan} {i j n m : Nat} {t : Trail}

/-- The steps of a way have the numbers of the plan and lie between its ends. -/
theorem Way.steps_within (h : Way text p i j t) (hp : p.Spans n m) :
    ∀ x ∈ t.steps, (n ≤ x.1 ∧ x.1 < m) ∧ i ≤ x.2 ∧ x.2 ≤ j := by
  intro x hx
  have hlt := hp.lt
  induction h generalizing n m with
  | empty | one | look | stop =>
      cases hp
      cases List.mem_singleton.mp hx
      simp only
      omega
  | group k g h ih =>
      have hle := h.le
      cases hp with
      | group _ hp =>
          have hbelow := hp.lt
          simp only [Trail.steps_append, Trail.mark, List.mem_append,
            List.mem_singleton] at hx
          rcases hx with (rfl | hx) | rfl
          · simp only
            omega
          · have hin := ih hp hx hbelow
            omega
          · simp only
            omega
  | seq k h h' ih ih' =>
      have hle := h.le
      have hle' := h'.le
      cases hp with
      | seq hp hq =>
          have hbelow := hp.lt
          have hbelow' := hq.lt
          simp only [Trail.steps_append, Trail.step, List.mem_append,
            List.mem_singleton] at hx
          rcases hx with (rfl | hx) | hx
          · simp only
            omega
          · have hin := ih hp hx hbelow
            omega
          · have hin := ih' hq hx hbelow'
            omega
  | altLeft k h ih =>
      have hle := h.le
      cases hp with
      | alt hp hq =>
          have hbelow := hp.lt
          have hbelow' := hq.lt
          rcases List.mem_cons.mp hx with rfl | hx
          · simp only
            omega
          · have hin := ih hp hx hbelow
            omega
  | altRight k h ih =>
      have hle := h.le
      cases hp with
      | alt hp hq =>
          have hbelow := hp.lt
          have hbelow' := hq.lt
          rcases List.mem_cons.mp hx with rfl | hx
          · simp only
            omega
          · have hin := ih hq hx hbelow'
            omega
  | round h h' ih ih' =>
      have hle := h.le
      have hle' := h'.le
      cases hp with
      | star _ hp =>
          have hbelow := hp.lt
          simp only [Trail.steps_append, Trail.choice, List.mem_append,
            List.mem_singleton] at hx
          rcases hx with (rfl | hx) | hx
          · simp only
            omega
          · have hin := ih hp hx hbelow
            omega
          · have hin := ih' (.star _ hp) hx hlt
            omega
  | plus h h' ih ih' =>
      have hle := h.le
      have hle' := h'.le
      cases hp with
      | plus _ hp =>
          have hbelow := hp.lt
          simp only [Trail.steps_append, Trail.step, List.mem_append,
            List.mem_singleton] at hx
          rcases hx with (rfl | hx) | hx
          · simp only
            omega
          · have hin := ih hp hx hbelow
            omega
          · have hin := ih' (.star _ hp) hx (by omega)
            omega

/-- A way takes no step with a number below those of its plan. -/
theorem Way.not_mem_of_lt {lo x : Nat} (h : Way text p i j t)
    (hp : p.Spans lo m) (hlo : n < lo) :
    (n, x) ∉ t.steps := by
  intro hx
  have hle : lo ≤ n := (h.steps_within hp _ hx).1.1
  omega

/-- A step of a repetition is its own or one of a round. -/
theorem Way.round_of_mem {greedy : Bool} {x : Nat × Nat}
    (h : Way text (.star n greedy p) i j t) (hx : x ∈ t.steps) :
    x.1 = n ∨ ∃ a b u, Way text p a b u ∧ x ∈ u.steps ∧ i ≤ a ∧ b ≤ j := by
  generalize hq : Plan.star n greedy p = q at h
  induction h with
  | stop n i greedy p =>
      cases hq
      cases List.mem_singleton.mp hx
      exact .inl rfl
  | round h h' ih ih' =>
      cases hq
      have hle := h.le
      have hle' := h'.le
      simp only [Trail.steps_append, Trail.choice, List.mem_append,
        List.mem_singleton] at hx
      rcases hx with (rfl | hx) | hx
      · exact .inl rfl
      · exact .inr ⟨_, _, _, h, hx, Nat.le_refl _, hle'⟩
      · rcases ih' hx rfl with hn | ⟨a, b, u, hu, hmem, ha, hb⟩
        · exact .inl hn
        · exact .inr ⟨a, b, u, hu, hmem, by omega, hb⟩
  | _ => cases hq

theorem Way.mayBeEmpty (h : Way text p i j t) (hij : j = i) :
    p.regex.mayBeEmpty = true := by
  induction h with
  | empty | look | stop | round => rfl
  | one => omega
  | group _ _ _ ih => exact ih hij
  | seq _ h h' ih ih' =>
      have hle := h.le
      have hle' := h'.le
      rw [Plan.regex, Regex.mayBeEmpty, ih (by omega), ih' (by omega)]
      rfl
  | altLeft _ _ ih =>
      rw [Plan.regex, Regex.mayBeEmpty, ih hij]
      rfl
  | altRight _ _ ih =>
      rw [Plan.regex, Regex.mayBeEmpty, ih hij, Bool.or_true]
  | plus h h' ih _ =>
      have hle := h.le
      have hle' := h'.le
      exact ih (by omega)

/-- Unless a plan is a repetition, its first step is taken only where the way
begins. -/
theorem Way.place_of_first (h : Way text p i j t) (hp : p.Spans n m)
    (hstar : ∀ greedy q, p ≠ .star n greedy q) {x : Nat}
    (hx : (n, x) ∈ t.steps) : x = i := by
  cases h with
  | empty | one | look =>
      cases hp
      cases List.mem_singleton.mp hx
      rfl
  | stop | round =>
      cases hp
      exact absurd rfl (hstar _ _)
  | group _ g h =>
      cases hp with
      | group _ hp =>
          simp only [Trail.steps_append, Trail.mark, List.mem_append,
            List.mem_singleton, Prod.mk.injEq] at hx
          rcases hx with (⟨-, hx⟩ | hx) | ⟨hx, -⟩
          · exact hx
          · exact absurd hx (h.not_mem_of_lt hp (by omega))
          · omega
  | seq _ h h' =>
      cases hp with
      | seq hp hq =>
          have hbelow := hp.lt
          simp only [Trail.steps_append, Trail.step, List.mem_append,
            List.mem_singleton, Prod.mk.injEq] at hx
          rcases hx with (⟨-, hx⟩ | hx) | hx
          · exact hx
          · exact absurd hx (h.not_mem_of_lt hp (by omega))
          · exact absurd hx (h'.not_mem_of_lt hq (by omega))
  | altLeft _ h =>
      cases hp with
      | alt hp hq =>
          rcases List.mem_cons.mp hx with heq | hx
          · exact congrArg Prod.snd heq
          · exact absurd hx (h.not_mem_of_lt hp (by omega))
  | altRight _ h =>
      cases hp with
      | alt hp hq =>
          have hbelow := hp.lt
          rcases List.mem_cons.mp hx with heq | hx
          · exact congrArg Prod.snd heq
          · exact absurd hx (h.not_mem_of_lt hq (by omega))
  | plus h h' =>
      cases hp with
      | plus _ hp =>
          simp only [Trail.steps_append, Trail.step, List.mem_append,
            List.mem_singleton, Prod.mk.injEq] at hx
          rcases hx with (⟨-, hx⟩ | hx) | hx
          · exact hx
          · exact absurd hx (h.not_mem_of_lt hp (by omega))
          · exact absurd hx (h'.not_mem_of_lt (.star _ hp) (by omega))

theorem Way.round_of_plus {greedy : Bool} {x : Nat × Nat}
    (h : Way text (.plus n greedy p) i j t) (hx : x ∈ t.steps) :
    x.1 = n ∨ x.1 = n + 1 ∨ ∃ a b u, Way text p a b u ∧ x ∈ u.steps ∧
    i ≤ a ∧ b ≤ j := by
  cases h with
  | plus h h' =>
      have hle := h.le
      have hle' := h'.le
      simp only [Trail.steps_append, Trail.step, List.mem_append,
        List.mem_singleton] at hx
      rcases hx with (rfl | hx) | hx
      · exact .inl rfl
      · exact .inr (.inr ⟨_, _, _, h, hx, Nat.le_refl _, hle'⟩)
      · rcases h'.round_of_mem hx with hn | ⟨a, b, u, hu, hmem, ha, hb⟩
        · exact .inr (.inl hn)
        · exact .inr (.inr ⟨a, b, u, hu, hmem, by omega, hb⟩)

/-- A choice about another round that is made before the way moves comes after
an empty round. -/
theorem Way.mayBeEmpty_of_next {greedy : Bool}
    (h : Way text (.plus n greedy p) i j t)
    (hp : p.Spans (n + 2) m) (hx : (n + 1, i) ∈ t.steps) :
    p.regex.mayBeEmpty = true := by
  cases h with
  | plus h h' =>
      have hle := h.le
      simp only [Trail.steps_append, Trail.step, List.mem_append,
        List.mem_singleton, Prod.mk.injEq] at hx
      rcases hx with (⟨hx, -⟩ | hx) | hx
      · omega
      · have hin := h.steps_within hp _ hx
        omega
      · have hin := h'.steps_within (.star _ hp) _ hx
        exact h.mayBeEmpty (by omega)

/-- A step that one way takes before it moves, and another one behind all
moves, is a step of an expression that may be passed without a move. The
induction is on the plan, since the two ways need not go through it alike. A
step of the first part comes behind all moves only if the second part makes
none, and a step of the second part comes before all moves only if the first
part makes none. -/
theorem mayBeEmpty_of_step {i' j' s : Nat} {t' : Trail}
    (hp : p.Spans n m) (h : Way text p i j t) (h' : Way text p i' j' t')
    (hs : (s, i) ∈ t.steps) (hs' : (s, j') ∈ t'.steps) :
    p.regex.mayBeEmpty = true := by
  have hp' := hp
  induction hp generalizing i j t i' j' t' with
  | empty | look | star => rfl
  | one n x =>
      cases h' with
      | one _ hc _ => cases List.mem_singleton.mp hs'
  | @group p n m g hp ih =>
      by_cases hn : s = n
      · subst hn
        exact h'.mayBeEmpty (h'.place_of_first hp' (by simp) hs')
      · cases h with
        | group _ _ h =>
            cases h' with
            | group _ _ h' =>
                simp only [Trail.steps_append, Trail.mark, List.mem_append,
                  List.mem_singleton, Prod.mk.injEq] at hs hs'
                rcases hs with (⟨rfl, -⟩ | hs) | ⟨-, heq⟩
                · exact absurd rfl hn
                · rcases hs' with (⟨rfl, -⟩ | hs') | ⟨rfl, -⟩
                  · exact absurd rfl hn
                  · exact ih h h' hs hs' hp
                  · have hin := (h.steps_within hp _ hs).1.1
                    omega
                · exact h.mayBeEmpty heq.symm
  | @seq p q n m k hp hq ihp ihq =>
      by_cases hn : s = n
      · subst hn
        exact h'.mayBeEmpty (h'.place_of_first hp' (by simp) hs')
      · cases h with
        | @seq _ _ _ a _ _ _ _ h₁ h₂ =>
            cases h' with
            | @seq _ _ _ b _ _ _ _ h₁' h₂' =>
                simp only [Trail.steps_append, Trail.step, List.mem_append,
                  List.mem_singleton, Prod.mk.injEq] at hs hs'
                rw [Plan.regex, Regex.mayBeEmpty, Bool.and_eq_true]
                rcases hs with (⟨rfl, -⟩ | hs) | hs
                · exact absurd rfl hn
                · have hin := h₁.steps_within hp _ hs
                  rcases hs' with (⟨rfl, -⟩ | hs') | hs'
                  · exact absurd rfl hn
                  · have hle := h₂'.le
                    have hin' := h₁'.steps_within hp _ hs'
                    obtain rfl : j' = b := Nat.le_antisymm hin'.2.2 hle
                    exact ⟨ihp h₁ h₁' hs hs' hp, h₂'.mayBeEmpty rfl⟩
                  · have hin' := h₂'.steps_within hq _ hs'
                    omega
                · have hle := h₁.le
                  have hin := h₂.steps_within hq _ hs
                  obtain rfl : a = i := Nat.le_antisymm hin.2.1 hle
                  rcases hs' with (⟨rfl, -⟩ | hs') | hs'
                  · exact absurd rfl hn
                  · have hin' := h₁'.steps_within hp _ hs'
                    omega
                  · exact ⟨h₁.mayBeEmpty rfl, ihq h₂ h₂' hs hs' hq⟩
  | @alt p q n m k hp hq ihp ihq =>
      by_cases hn : s = n
      · subst hn
        exact h'.mayBeEmpty (h'.place_of_first hp' (by simp) hs')
      · have hinner : ∀ {x y : Nat} {b : Bool} {u : Trail},
            (s, x) ∈ (Trail.choice n y b ++ u).steps → (s, x) ∈ u.steps := by
          intro x y b u hx
          rcases List.mem_cons.mp hx with heq | hx
          · cases heq
            exact absurd rfl hn
          · exact hx
        rw [Plan.regex, Regex.mayBeEmpty, Bool.or_eq_true]
        cases h with
        | altLeft _ h =>
            have hin := h.steps_within hp _ (hinner hs)
            cases h' with
            | altLeft _ h' => exact .inl (ihp h h' (hinner hs) (hinner hs') hp)
            | altRight _ h' =>
                have hin' := h'.steps_within hq _ (hinner hs')
                omega
        | altRight _ h =>
            have hin := h.steps_within hq _ (hinner hs)
            cases h' with
            | altLeft _ h' =>
                have hin' := h'.steps_within hp _ (hinner hs')
                omega
            | altRight _ h' => exact .inr (ihq h h' (hinner hs) (hinner hs') hq)
  | @plus p n m greedy hp ih =>
      by_cases hn : s = n
      · subst hn
        exact h'.mayBeEmpty (h'.place_of_first hp' (by simp) hs')
      · rcases h'.round_of_plus hs' with rfl | rfl
          | ⟨a', b', u', hu', hmem', -, hb'⟩
        · exact absurd rfl hn
        · exact h.mayBeEmpty_of_next hp hs
        · rcases h.round_of_plus hs with rfl | rfl | ⟨a, b, u, hu, hmem, ha, -⟩
          · exact absurd rfl hn
          · exact h.mayBeEmpty_of_next hp hs
          · have hin := hu.steps_within hp _ hmem
            have hin' := hu'.steps_within hp _ hmem'
            obtain rfl : a = i := Nat.le_antisymm hin.2.1 ha
            obtain rfl : b' = j' := Nat.le_antisymm hb' hin'.2.2
            exact ih hu hu' hmem hmem' hp

/-- Rounds that move on share no step with what follows them. -/
theorem Way.round_apart {greedy : Bool} {k : Nat} {u : Trail}
    (h : Way text p i j t) (h' : Way text (.star n greedy p) j k u) {lo : Nat}
    (hlo : n < lo) (hp : p.Spans lo m) (hmoves : p.regex.mayBeEmpty = false) :
    ∀ x ∈ t.steps, ∀ y ∈ u.steps, x ≠ y := by
  rintro ⟨s, x⟩ hx _ hy rfl
  have hin := h.steps_within hp _ hx
  rcases h'.round_of_mem hy with heq | ⟨a, b, v, hv, hmem, ha, -⟩
  · simp only at heq hin
    omega
  · have hin' := hv.steps_within hp _ hmem
    simp only at hin hin'
    obtain rfl : a = j := by omega
    obtain rfl : x = a := by omega
    cases hmoves.symm.trans (mayBeEmpty_of_step hp hv h hmem hx)

theorem nodup_three {x : Nat × Nat} {l l' : List (Nat × Nat)}
    (hx : ∀ y ∈ l ++ l', y ≠ x)
    (hl : l.Nodup) (hl' : l'.Nodup) (hapart : ∀ y ∈ l, ∀ z ∈ l', y ≠ z) :
    ([x] ++ l ++ l').Nodup := by
  have hnot : x ∉ l ++ l' := fun hmem => hx x hmem rfl
  rw [List.append_assoc]
  show (x :: (l ++ l')).Nodup
  exact List.nodup_cons.mpr ⟨hnot, List.nodup_append.mpr ⟨hl, hl', hapart⟩⟩

/-- Where all rounds move on, no step is passed twice at the same place. The
numbers keep the steps of the parts apart, but for the rounds of a repetition,
which share theirs: of these each one begins further on. -/
theorem Way.direct (h : Way text p i j t)
    (hp : p.Spans n m) (hsolid : p.regex.solid = true) :
    t.Direct := by
  rw [Trail.Direct]
  induction h generalizing n m with
  | empty | one | look | stop => exact List.pairwise_singleton _ _
  | group k g h ih =>
      cases hp with
      | group _ hp =>
          refine nodup_three ?_ (ih hp hsolid) (List.pairwise_singleton _ _) ?_
          · rintro y hy rfl
            rcases List.mem_append.mp hy with hy | hy
            · exact h.not_mem_of_lt hp (by omega) hy
            · cases List.mem_singleton.mp hy
          · rintro y hy z hz rfl
            cases List.mem_singleton.mp hz
            exact h.not_mem_of_lt hp (by omega) hy
  | seq k h h' ih ih' =>
      cases hp with
      | seq hp hq =>
          rw [Plan.regex, Regex.solid, Bool.and_eq_true] at hsolid
          have hbelow := hp.lt
          refine nodup_three ?_ (ih hp hsolid.1) (ih' hq hsolid.2) ?_
          · rintro y hy rfl
            rcases List.mem_append.mp hy with hy | hy
            · exact h.not_mem_of_lt hp (by omega) hy
            · exact h'.not_mem_of_lt hq (by omega) hy
          · rintro y hy z hz rfl
            exact h'.not_mem_of_lt hq (h.steps_within hp _ hy).1.2 hz
  | altLeft k h ih =>
      cases hp with
      | alt hp hq =>
          rw [Plan.regex, Regex.solid, Bool.and_eq_true] at hsolid
          exact List.nodup_cons.mpr
            ⟨h.not_mem_of_lt hp (Nat.lt_succ_self _), ih hp hsolid.1⟩
  | altRight k h ih =>
      cases hp with
      | alt hp hq =>
          have hbelow := hp.lt
          rw [Plan.regex, Regex.solid, Bool.and_eq_true] at hsolid
          exact List.nodup_cons.mpr
            ⟨h.not_mem_of_lt hq (by omega), ih hq hsolid.2⟩
  | round h h' ih ih' =>
      cases hp with
      | star _ hp =>
          have hbody := hsolid
          rw [Plan.regex, Regex.solid, Bool.and_eq_true,
            Bool.not_eq_true'] at hbody
          have hle := h.le
          refine nodup_three ?_ (ih hp hbody.2) (ih' (.star _ hp) hsolid)
            (h.round_apart h' (Nat.lt_succ_self _) hp hbody.1)
          rintro y hy rfl
          rcases List.mem_append.mp hy with hy | hy
          · exact h.not_mem_of_lt hp (Nat.lt_succ_self _) hy
          · have hplace := (h'.steps_within (.star _ hp) _ hy).2.1
            have hempty := h.mayBeEmpty (Nat.le_antisymm hplace hle)
            cases hbody.1.symm.trans hempty
  | plus h h' ih ih' =>
      cases hp with
      | plus _ hp =>
          rw [Plan.regex, Regex.solid, Bool.and_eq_true,
            Bool.not_eq_true'] at hsolid
          refine nodup_three ?_ (ih hp hsolid.2) (ih' (.star _ hp) ?_)
            (h.round_apart h' (by omega) hp hsolid.1)
          · rintro y hy rfl
            rcases List.mem_append.mp hy with hy | hy
            · exact h.not_mem_of_lt hp (by omega) hy
            · exact h'.not_mem_of_lt (.star _ hp) (Nat.lt_succ_self _) hy
          · rw [Plan.regex, Regex.solid, hsolid.1, hsolid.2]
            rfl

end

/-- The first match of a solid pattern passes what its expression passes, and
it is preferred to all else that the expression passes from there. -/
theorem First.chosen {p : Pattern} {r : Regex} {text : Array Char}
    {k : Nat} {m : Match} (he : p.engine = .ofRegex (.group 0 r))
    (hr : r.solid = true) (hm : p.First text k m) :
    ∃ l c, Passes text r m.start m.stop l c ∧ m.Has l ∧
      ∀ j l' c', Passes text r m.start j l' c' → c' = c ∨ Before c c' := by
  obtain ⟨t, ht, hmarks⟩ := hm.preferred
  have hplan : p.engine.plan = (Plan.ofRegex 0 (.group 0 r)).1 := by
    rw [he]; rfl
  have hregex : p.engine.plan.regex = .group 0 r := by
    rw [hplan, Plan.regex_ofRegex]
  have hpasses := ht.way.passes
  rw [hregex] at hpasses
  have hinner : ∃ l, Passes text r m.start m.stop l t.choices ∧
      t.marks = (2 * 0, m.start) :: (l ++ [(2 * 0 + 1, m.stop)]) := by
    generalize t.marks = marks at hpasses
    cases hpasses with
    | group _ h => exact ⟨_, h, rfl⟩
  obtain ⟨l, hl, hlmarks⟩ := hinner
  refine ⟨l, t.choices,
    hl, by rw [Match.Has, hmarks, hlmarks], fun j l' c' h' => ?_⟩
  obtain ⟨u, hu, -, rfl⟩ := (Passes.group 0 h').way hregex
  have hspans : p.engine.plan.Spans 0 (Plan.ofRegex 0 (.group 0 r)).2 := by
    rw [hplan]
    exact Plan.spans_ofRegex _ 0
  have hdirect := hu.direct hspans (by rw [hregex]; exact hr)
  rcases ht.best j u hu hdirect with ⟨-, rfl⟩ | hbefore
  · exact .inl rfl
  · exact .inr hbefore

end Codemod.Pattern
