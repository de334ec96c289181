import Codemod.Proofs.Grammar

/-!
# Steps within counts and classes

A count and a class are read over many steps. `CountText` and `OpenText` say
what the part that has been read is; a step makes it longer, or ends the whole.

Of a class that is still open the items are not known to the end, since the next
character may make a range of the last one. `Goes` says instead that whatever
items follow, the whole is a class.
-/

namespace Codemod.Pattern.Grammar

open Reader (Atom OpenClass Place State isClassOperator)

/-! ## Numbers -/

theorem number?_append (base : Nat) (digit? : Char → Option Nat)
    (ds : List Char) (c : Char) :
    number? base digit? (ds ++ [c]) = (number? base digit? ds).bind fun n =>
      (digit? c).map (base * n + ·) := by
  rw [number?, List.foldlM_append]
  simp only [List.foldlM_cons, List.foldlM_nil, bind_pure]
  rfl

/-- The beginning of a number with white space around it: the number so far, and
whether it has ended. -/
inductive NumberText : List Char → Option Nat → Bool → Prop where
  | blank {us : List Char} (hus : ∀ c ∈ us, Text.isWhite c = true) :
      NumberText us none false
  | digits {us ds : List Char} {n : Nat}
      (hus : ∀ c ∈ us, Text.isWhite c = true) (hne : ds ≠ [])
      (hn : number? 10 Text.decimalValue? ds = some n) :
      NumberText (us ++ ds) (some n) false
  | ended {us ds vs : List Char} {n : Nat}
      (hus : ∀ c ∈ us, Text.isWhite c = true) (hne : ds ≠ [])
      (hn : number? 10 Text.decimalValue? ds = some n)
      (hvs : ∀ c ∈ vs, Text.isWhite c = true) :
      NumberText (us ++ ds ++ vs) (some n) true

section

variable {ds : List Char} {n d : Nat} {ended : Bool} {c : Char}

theorem NumberText.number (h : NumberText ds (some n) ended) : Number ds n := by
  cases h with
  | @digits us es _ hus hne hn =>
      have hnumber := Number.mk hus hne hn (List.forall_mem_nil _)
      rwa [List.append_nil] at hnumber
  | ended hus hne hn hvs => exact .mk hus hne hn hvs

theorem NumberText.first (h : NumberText ds none ended)
    (hd : Text.decimalValue? c = some d) :
    NumberText (ds ++ [c]) (some d) false := by
  cases h with
  | blank hus =>
      refine .digits hus (List.cons_ne_nil _ _) ?_
      show (Text.decimalValue? c).map (10 * 0 + ·) >>= pure = _
      rw [hd]
      simp

theorem NumberText.next (h : NumberText ds (some n) ended)
    (hended : ¬ ended = true) (hd : Text.decimalValue? c = some d) :
    NumberText (ds ++ [c]) (some (10 * n + d)) false := by
  cases h with
  | ended => exact absurd rfl hended
  | @digits us es _ hus hne hn =>
      rw [List.append_assoc]
      refine .digits hus (by simp) ?_
      rw [number?_append, hn, hd]
      rfl

theorem NumberText.white (h : NumberText ds none ended)
    (hc : Text.isWhite c = true) : NumberText (ds ++ [c]) none false := by
  cases h with
  | blank hus =>
      exact .blank (List.forall_mem_append.mpr ⟨hus, by simpa using hc⟩)

theorem NumberText.stop (h : NumberText ds (some n) ended)
    (hc : Text.isWhite c = true) : NumberText (ds ++ [c]) (some n) true := by
  cases h with
  | digits hus hne hn => exact .ended hus hne hn (by simpa using hc)
  | ended hus hne hn hvs =>
      rw [List.append_assoc]
      exact .ended hus hne hn
        (List.forall_mem_append.mpr ⟨hvs, by simpa using hc⟩)

end

/-- The beginning of a count. -/
inductive CountText : List Char → Reader.Count → Prop where
  | low {ds : List Char} {n : Option Nat} {ended : Bool}
      (h : NumberText ds n ended) : CountText ds (.low n ended)
  | comma {ds : List Char} {n : Nat} (h : Number ds n) :
      CountText (ds ++ [',']) (.comma n)
  | high {ds es : List Char} {m : Nat} {n : Option Nat} {ended : Bool}
      (h : Number ds m) (h' : NumberText es n ended) :
      CountText (ds ++ ',' :: es) (.high m n ended)

/-- A step within a count leaves its beginning longer, or ends it. -/
theorem stepCount_sound {st st' : State} {k : Reader.Count} {ds : List Char}
    {c : Char} (h : CountText ds k) (hs : Reader.stepCount st k c = .ok st') :
    (∃ k', st' = st.enter (.count k') ∧ CountText (ds ++ [c]) k') ∨
      c = '\x7d' ∧ ∃ lo hi, Count ds lo hi ∧ st.counted lo hi = .ok st' := by
  cases h with
  | @low _ n ended h =>
      simp only [Reader.stepCount] at hs
      split at hs
      · next d m hd =>
          split at hs
          · cases hs
          · next hended =>
              cases hs
              exact .inl ⟨_, rfl, .low (h.next hended hd)⟩
      · next d hd =>
          cases hs
          exact .inl ⟨_, rfl, .low (h.first hd)⟩
      · next m hd =>
          split at hs
          · next hc =>
              cases hs
              exact .inl ⟨_, rfl, .low (h.stop hc)⟩
          · split at hs
            · next hc =>
                cases hs
                rw [beq_iff_eq.mp hc]
                exact .inl ⟨_, rfl, .comma h.number⟩
            · split at hs
              · next hc =>
                  exact .inr ⟨beq_iff_eq.mp hc, _, _, .exactly h.number, hs⟩
              · cases hs
      · next hd =>
          split at hs
          · next hc =>
              cases hs
              exact .inl ⟨_, rfl, .low (h.white hc)⟩
          · cases hs
  | @comma ds n h =>
      have hempty : NumberText [] none false := .blank (List.forall_mem_nil _)
      simp only [Reader.stepCount] at hs
      rw [List.append_assoc]
      split at hs
      · next d hd =>
          cases hs
          exact .inl ⟨_, rfl, .high h (hempty.first hd)⟩
      · next hd =>
          split at hs
          · next hc =>
              cases hs
              exact .inl ⟨_, rfl, .high h (hempty.white hc)⟩
          · split at hs
            · next hc => exact .inr ⟨beq_iff_eq.mp hc, _, _, .atLeast h, hs⟩
            · cases hs
  | @high ds es m n ended h h' =>
      simp only [Reader.stepCount] at hs
      rw [List.append_assoc]
      split at hs
      · next d k hd =>
          split at hs
          · cases hs
          · next hended =>
              cases hs
              exact .inl ⟨_, rfl, .high h (h'.next hended hd)⟩
      · next d hd =>
          cases hs
          exact .inl ⟨_, rfl, .high h (h'.first hd)⟩
      · next k hd =>
          split at hs
          · next hc =>
              cases hs
              exact .inl ⟨_, rfl, .high h (h'.stop hc)⟩
          · split at hs
            · next hc =>
                exact .inr ⟨beq_iff_eq.mp hc, _, _, .between h h'.number, hs⟩
            · cases hs
      · next hd =>
          split at hs
          · next hc =>
              cases hs
              exact .inl ⟨_, rfl, .high h (h'.white hc)⟩
          · cases hs

/-! ## Classes -/

/-- Behind `ds` there are items that begin with `front`, and whatever follows
them, all is a class. The items in front of these are `is`. -/
def Goes (ds : List Char) (negated : Bool) (is : List ClassItem)
    (front : List Char) : Prop :=
  ∀ cs js, Items (front ++ cs) js →
    Class (ds ++ (front ++ cs)) negated (is ++ js)

/-- The beginning of a class. -/
inductive OpenText : List Char → OpenClass → Prop where
  | opened : OpenText [] {}
  | leading {negated : Bool} {n : Nat} (hne : negated = false → n ≠ 0) :
      OpenText ((if negated then ['^'] else []) ++ .replicate n '-')
        ⟨negated, .replicate n (.range '-' '-'), .leading⟩
  | between {ds : List Char} {negated : Bool} {is : List ClassItem}
      (h : Goes ds negated is.reverse []) : OpenText ds ⟨negated, is, .between⟩
  | atom {ds as : List Char} {negated plain : Bool} {is : List ClassItem}
      {a : Atom} (h : Goes ds negated is.reverse as) (ha : ClassAtom as a)
      (hplain : plain = true ↔ ∃ c, as = [c]) :
      OpenText (ds ++ as) ⟨negated, is, .atom a plain⟩
  | dashed {ds as : List Char} {negated : Bool} {is : List ClassItem}
      {a : Atom} (h : Goes ds negated is.reverse as) (ha : ClassAtom as a)
      (hdash : as ≠ ['-']) :
      OpenText (ds ++ as ++ ['-']) ⟨negated, is, .dashed a⟩

/-- What stands before a backslash in the longer form that is open. -/
inductive EscapeText : Place → List Char → Prop where
  | items : EscapeText .items []
  | between {ds : List Char} {negated : Bool} {is : List ClassItem}
      (h : Goes ds negated is.reverse ['\\']) :
      EscapeText (.bracket ⟨negated, is, .between⟩) ('[' :: ds)
  | dashed {ds as : List Char} {negated : Bool} {is : List ClassItem}
      {a : Atom} (h : Goes ds negated is.reverse as) (ha : ClassAtom as a)
      (hdash : as ≠ ['-']) :
      EscapeText (.bracket ⟨negated, is, .dashed a⟩)
        ('[' :: (ds ++ as ++ ['-']))

/-- What a character within a class can lead to: the class stays open, or an
escape begins, or the class is closed. -/
inductive ClassStep (st : State) (ds : List Char) : Char → State → Prop where
  | more {c : Char} {b : OpenClass} (h : OpenText (ds ++ [c]) b) :
      ClassStep st ds c (st.enter (.bracket b))
  | escape {b : OpenClass} (h : EscapeText (.bracket b) ('[' :: ds)) :
      ClassStep st ds '\\' (st.enter (.escape (.bracket b)))
  | close {b : OpenClass} (h : Class ds b.negated b.items.reverse) :
      ClassStep st ds ']' (st.closeClass b)

section

variable {ds as : List Char} {negated : Bool} {is : List ClassItem} {a : Atom}
  {c : Char}

theorem Goes.front (h : Goes ds negated is []) (front : List Char) :
    Goes ds negated is front := fun cs js hitems => h (front ++ cs) js hitems

/-- Behind an atom the next item has begun, unless a dash follows. -/
theorem Goes.next (h : Goes ds negated is as) (ha : ClassAtom as a)
    (hdash : c ≠ '-')
    (htwice : ∀ d, as = [d] → isClassOperator d = true → c ≠ d) :
    Goes (ds ++ as) negated (is ++ [atomItem a]) [c] := by
  intro cs js hitems
  have hmore := h _ _ (Items.atom ha (by simpa using hdash)
    (fun d hd hop => by simpa using htwice d hd hop) hitems)
  rw [List.append_assoc, List.append_assoc]
  exact hmore

theorem Goes.close (h : Goes ds negated is as) (ha : ClassAtom as a) :
    Class (ds ++ as) negated (is ++ [atomItem a]) := by
  have hall := h [] [atomItem a]
  rw [List.append_nil] at hall
  have hone := Items.atom ha (by simp) (by simp) .nil
  rw [List.append_nil] at hone
  exact hall hone

theorem Goes.range {es : List Char} {lo hi : Char}
    (h : Goes ds negated is as) (ha : ClassAtom as (.char lo))
    (hdash : as ≠ ['-']) (hhi : RangeEnd es hi) (hle : lo ≤ hi) :
    Goes (ds ++ as ++ '-' :: es) negated (is ++ [.range lo hi]) [] := by
  intro cs js hitems
  have hmore := h ('-' :: (es ++ cs)) _ (.range ha hdash hhi hle hitems)
  simpa using hmore

theorem Goes.dash (h : Goes ds negated is as) (ha : ClassAtom as a)
    (hdash : as ≠ ['-']) : Class (ds ++ as ++ ['-']) negated
      (is ++ [atomItem a, .range '-' '-']) := by
  have hall := h ['-'] _ (.dash ha hdash)
  rwa [← List.append_assoc] at hall

/-- The items begin behind what leads the class. -/
theorem goes_lead {n : Nat} (hc : c ≠ '-')
    (hcaret : negated = false → n = 0 → c ≠ '^') :
    Goes ((if negated then ['^'] else []) ++ .replicate n '-') negated
      (.replicate n (.range '-' '-')) [c] := by
  intro cs js hitems
  have hdash : ([c] ++ cs).head? ≠ some '-' := by simpa using hc
  cases negated with
  | true =>
      have hclass := Class.negated (.dashes n) hitems (fun _ => hdash) (by simp)
      simpa using hclass
  | false =>
      have hclass :=
        Class.plain (.dashes n) hitems ?_ (fun _ => hdash) (by simp)
      · simpa using hclass
      · cases n with
        | zero => simpa using hcaret rfl rfl
        | succ n => simp [List.replicate_succ]

theorem goes_bracket : Goes ((if negated then ['^'] else []) ++ [']']) negated
    [.range ']' ']'] [] := by
  intro cs js hitems
  cases negated with
  | true => simpa using Class.negated .bracket hitems (by simp) (by simp)
  | false =>
      simpa using Class.plain .bracket hitems (by simp) (by simp) (by simp)

theorem Goes.longer (h : Goes ds negated is [c]) (es : List Char) :
    Goes ds negated is (c :: es) := fun cs js hitems => h (es ++ cs) js hitems

theorem ClassAtom.eq_char (h : ClassAtom [c] a) : a = .char c := by
  cases h with
  | plain hc => rfl
  | char h => cases h
  | property h => cases h

end

theorem add_eq (b : OpenClass) (a : Atom) :
    b.add a = ⟨b.negated, atomItem a :: b.items, .between⟩ := by
  cases a <;> rfl

theorem addRange_eq_ok {b b' : OpenClass} {a a' : Atom}
    (h : b.addRange a a' = .ok b') : ∃ lo hi, a = .char lo ∧ a' = .char hi ∧
      lo ≤ hi ∧ b' = ⟨b.negated, .range lo hi :: b.items, .between⟩ := by
  cases a with
  | entry => cases h
  | char lo =>
      cases a' with
      | entry => cases h
      | char hi =>
          simp only [OpenClass.addRange] at h
          split at h
          · next hle =>
              cases h
              exact ⟨lo, hi, rfl, rfl, hle, rfl⟩
          · cases h

/-- A character behind an atom. -/
theorem stepBracket_atom {st st' : State} {negated plain : Bool}
    {is : List ClassItem} {a : Atom} {c : Char}
    (h : Reader.stepBracket st ⟨negated, is, .atom a plain⟩ c = .ok st') :
    (a = .char c → plain = true → isClassOperator c = false) ∧
      (if c == '-' then .ok (st.enter (.bracket ⟨negated, is, .dashed a⟩))
        else Reader.stepBetween st ⟨negated, atomItem a :: is, .between⟩ c) =
          .ok st' := by
  cases a with
  | entry i => exact ⟨by simp, h⟩
  | char d =>
      simp only [Reader.stepBracket] at h
      split at h
      · cases h
      · next hdoubled =>
          refine ⟨?_, h⟩
          rintro ⟨⟩ rfl
          simpa using hdoubled

section

variable {st st' : State} {ds : List Char} {b : OpenClass} {c : Char}

/-- A character where an item begins, if it is no closing bracket. -/
theorem stepBetween_sound {negated : Bool} {is : List ClassItem}
    (hgoes : Goes ds negated is.reverse [c]) (hc : c ≠ ']')
    (hs : Reader.stepBetween st ⟨negated, is, .between⟩ c = .ok st') :
    ClassStep st ds c st' := by
  rw [Reader.stepBetween.eq_def] at hs
  split at hs
  · exact absurd rfl hc
  · cases hs
  · cases hs
    exact .escape (.between hgoes)
  · next hclose hopen hescape =>
      cases hs
      have ha : ClassAtom [c] (.char c) :=
        .plain (by simpa using ⟨hclose, hopen, hescape⟩)
      exact .more (.atom hgoes ha (by simp))

/-- A character among those that may lead a class. -/
theorem stepLeading_sound {negated : Bool} {n : Nat} {phase : Reader.ClassPhase}
    (hcaret : negated = false → n = 0 → c ≠ '^')
    (hs : Reader.stepLeading st
      ⟨negated, .replicate n (.range '-' '-'), phase⟩ c = .ok st') :
    ClassStep st
      ((if negated then ['^'] else []) ++ .replicate n '-') c st' := by
  rw [Reader.stepLeading] at hs
  split at hs
  · next hc =>
      cases hs
      cases beq_iff_eq.mp hc
      refine .more ?_
      rw [List.append_assoc, ← List.replicate_succ']
      exact .leading (by simp)
  · next hdash =>
      split at hs
      · next hc =>
          rw [Bool.and_eq_true, beq_iff_eq] at hc
          obtain ⟨rfl, hempty⟩ := hc
          cases n with
          | zero =>
              cases hs
              have hgoes : Goes ((if negated then ['^'] else []) ++ [']'])
                  negated [.range ']' ']'] [] := goes_bracket
              refine .more (.between ?_)
              simpa using hgoes
          | succ n => simp [List.replicate_succ] at hempty
      · next hbracket =>
          by_cases hc : c = ']'
          · subst hc
            cases hs
            have hn : n ≠ 0 := by
              rintro rfl
              exact hbracket rfl
            refine .close ?_
            rw [List.reverse_replicate]
            cases negated with
            | true =>
                simpa using Class.negated (.dashes n) .nil (by simp) (by simpa)
            | false =>
                have hclass :=
                  Class.plain (.dashes n) .nil ?_ (by simp) (by simpa)
                · simpa using hclass
                · cases n with
                  | zero => exact absurd rfl hn
                  | succ n => simp [List.replicate_succ]
          · refine stepBetween_sound ?_ hc hs
            rw [List.reverse_replicate]
            exact goes_lead (by simpa using hdash) hcaret

/-- A step within a class. -/
theorem stepBracket_sound (h : OpenText ds b)
    (hs : Reader.stepBracket st b c = .ok st') : ClassStep st ds c st' := by
  cases h with
  | opened =>
      simp only [Reader.stepBracket] at hs
      split at hs
      · next hc =>
          cases hs
          cases beq_iff_eq.mp hc
          have hopen : OpenText ((if true then ['^'] else []) ++
              .replicate 0 '-') ⟨true, .replicate 0 _, .leading⟩ :=
            .leading (by simp)
          exact .more hopen
      · next hc =>
          have hdone : ClassStep st ((if false then ['^'] else []) ++
              .replicate 0 '-') c st' :=
            stepLeading_sound (fun _ _ => by simpa using hc) hs
          exact hdone
  | leading hne =>
      exact stepLeading_sound (fun hplain hn => absurd hn (hne hplain)) hs
  | between h =>
      by_cases hc : c = ']'
      · subst hc
        cases hs
        have hclass := h [] [] .nil
        refine .close ?_
        simpa using hclass
      · exact stepBetween_sound (h.front [c]) hc hs
  | @atom ds as _ _ _ _ h ha hplain =>
      obtain ⟨hdoubled, hs⟩ := stepBracket_atom hs
      have htwice : ∀ d, as = [d] → isClassOperator d = true → c ≠ d := by
        rintro d rfl hop rfl
        rw [hdoubled ha.eq_char (hplain.mpr ⟨c, rfl⟩)] at hop
        cases hop
      split at hs
      · next hc =>
          cases hs
          cases beq_iff_eq.mp hc
          refine .more (.dashed h ha ?_)
          rintro rfl
          exact htwice '-' rfl rfl rfl
      · next hc =>
          by_cases hclose : c = ']'
          · subst hclose
            cases hs
            refine .close ?_
            rw [List.reverse_cons]
            exact h.close ha
          · refine stepBetween_sound ?_ hclose hs
            rw [List.reverse_cons]
            exact h.next ha (by simpa using hc) htwice
  | @dashed ds as _ _ a h ha hdash =>
      simp only [Reader.stepBracket] at hs
      split at hs
      · cases hs
        refine .close ?_
        have hclass := h.dash ha hdash
        rw [add_eq, add_eq]
        simpa [atomItem] using hclass
      · cases hs
      · cases hs
        exact .escape (.dashed h ha hdash)
      · next hclose hminus hescape =>
          cases hadd : OpenClass.addRange ⟨_, _, .dashed a⟩ a (.char c) with
          | error e =>
              rw [hadd] at hs
              cases hs
          | ok b =>
              rw [hadd] at hs
              cases hs
              obtain ⟨lo, hi, rfl, heq, hle, rfl⟩ := addRange_eq_ok hadd
              cases heq
              have hhi : RangeEnd [c] c :=
                .plain (by simpa using ⟨hclose, hminus, hescape⟩)
              refine .more (.between ?_)
              rw [List.reverse_cons, List.append_assoc]
              exact h.range ha hdash hhi hle

end

end Codemod.Pattern.Grammar
