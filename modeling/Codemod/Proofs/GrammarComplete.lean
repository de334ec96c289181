import Codemod.Proofs.GrammarSound
import Codemod.Proofs.Reading
import Codemod.Proofs.Tokens
import Mathlib.Tactic.ByContra

/-!
# What stands for a form is parsed into it

The other direction: the reader takes every text of the grammar, form by form,
and arrives at what the grammar says. So a text stands for one form at most, and
what it stands for is what it is parsed into, unless it is nested too deep.

An opening bracket or an atom of a class is only settled by the character after
it. The lemmas about these read the rest of the text as well, from a state in
which they are settled.
-/

namespace Codemod.Pattern.Grammar

open Reader (Escaped Atom FlagItem Item OpenGroup OpenClass Place Mode State
  escape? isName isNameChar isClassOperator changeFlags flagItem? maxCount
  foldlM_ok foldlM_step)

/-! ## Escapes -/

section

variable {st : State} {place : Place} {c : Char} {ds : List Char}

theorem putEscaped_enter (st : State) (m : Mode) (place : Place) (x : Escaped) :
    (st.enter m).putEscaped place x = st.putEscaped place x := by
  cases place <;> cases x <;> rfl

theorem putCode_enter (st : State) (m : Mode) (place : Place) (n : Nat) :
    (st.enter m).putCode place n = st.putCode place n := by
  rw [State.putCode, State.putCode]
  split
  · exact putEscaped_enter st m place _
  · rfl

theorem stepHexFixed_enter (st : State) (m : Mode) (left value : Nat)
    (place : Place) (c : Char) :
    Reader.stepHexFixed (st.enter m) left value place c =
      Reader.stepHexFixed st left value place c := by
  rw [Reader.stepHexFixed, Reader.stepHexFixed]
  simp only [putCode_enter]
  rfl

theorem not_brace_of_hexValue {x : Nat}
    (h : Text.hexValue? c = some x) {d : Char}
    (hd : d ∈ ['\x7b', '\x7d']) : (c == d) = false := by
  rw [beq_eq_false_iff_ne]
  rintro rfl
  rcases List.mem_pair.mp hd with rfl | rfl <;> cases h

theorem foldlM_hexFixed {value n : Nat} (hne : ds ≠ [])
    (hn : ds.foldlM (fun n c => (Text.hexValue? c).map (16 * n + ·)) value =
      some n) :
    ds.foldlM Reader.step (st.enter (.hexFixed ds.length value place)) =
      st.putCode place n := by
  induction ds generalizing value with
  | nil => exact absurd rfl hne
  | cons d ds ih =>
      obtain ⟨v, hd, hn⟩ := Option.bind_eq_some_iff.mp hn
      obtain ⟨x, hx, rfl⟩ := Option.map_eq_some_iff.mp hd
      have hstep : Reader.step
          (st.enter (.hexFixed (d :: ds).length value place)) d =
          Reader.stepHexFixed st (d :: ds).length value place d :=
        stepHexFixed_enter _ _ _ _ _ _
      rw [List.foldlM_cons, hstep, Reader.stepHexFixed, hx]
      cases ds with
      | nil =>
          cases hn
          exact bind_pure _
      | cons d' ds => exact ih (List.cons_ne_nil _ _) hn

theorem foldlM_hexBraced {digits value n : Nat}
    (hn : ds.foldlM (fun n c => (Text.hexValue? c).map (16 * n + ·)) value =
      some n) :
    ds.foldlM Reader.step (st.enter (.hexBraced digits value place)) =
      .ok (st.enter (.hexBraced (digits + ds.length) n place)) := by
  induction ds generalizing digits value with
  | nil =>
      cases hn
      rfl
  | cons d ds ih =>
      obtain ⟨v, hd, hn⟩ := Option.bind_eq_some_iff.mp hn
      obtain ⟨x, hx, rfl⟩ := Option.map_eq_some_iff.mp hd
      have hstep : Reader.step (st.enter (.hexBraced digits value place)) d =
          .ok (st.enter (.hexBraced (digits + 1) (16 * value + x) place)) := by
        show Reader.stepHexBraced _ _ _ _ _ = _
        rw [Reader.stepHexBraced, not_brace_of_hexValue hx (by simp), hx]
        rfl
      rw [foldlM_step hstep, ih hn, List.length_cons, Nat.add_assoc,
        Nat.add_comm 1]

/-- An escape is read and put where it was written. -/
theorem Escape.read {x : Escaped} (h : Escape ds x) (st : State)
    (place : Place) : ds.foldlM Reader.step (st.enter (.escape place)) =
      st.putEscaped place x := by
  have hwidth : ∀ {c : Char} {n : Nat}, hexWidth? c = some n →
      Reader.step (st.enter (.escape place)) c =
        .ok (st.enter (.hexStart n place)) := by
    intro c n hc
    rw [hexWidth?.eq_def] at hc
    split at hc
    · cases hc; rfl
    · cases hc; rfl
    · cases hc; rfl
    · cases hc
  cases h with
  | @sign c x hx =>
      have hstep : Reader.step (st.enter (.escape place)) c =
          st.putEscaped place x := by
        show Reader.stepEscape _ _ _ = _
        rw [Reader.stepEscape.eq_def]
        split
        · cases hx
        · cases hx
        · cases hx
        · rw [hx]
          exact putEscaped_enter st _ place x
      rw [List.foldlM_cons, hstep]
      exact bind_pure _
  | @fixed c ds n hlen hn hvalid =>
      rw [foldlM_step (hwidth hlen)]
      cases ds with
      | nil => exact absurd rfl (hexWidth?_ne_zero hlen)
      | cons d ds =>
          obtain ⟨v, hd, -⟩ := Option.bind_eq_some_iff.mp hn
          obtain ⟨x, hx, -⟩ := Option.map_eq_some_iff.mp hd
          have hfirst : Reader.step
              (st.enter (.hexStart (d :: ds).length place)) d = Reader.step
              (st.enter (.hexFixed (d :: ds).length 0 place)) d := by
            show (if (d == '\x7b') = true then _
              else Reader.stepHexFixed _ _ _ _ _) =
                Reader.stepHexFixed _ _ _ _ _
            rw [not_brace_of_hexValue hx (by simp), stepHexFixed_enter,
              stepHexFixed_enter]
            rfl
          rw [List.foldlM_cons, hfirst, ← List.foldlM_cons, foldlM_hexFixed
              (List.cons_ne_nil _ _) hn, State.putCode, if_pos hvalid]
  | @braced c ds n hc hne hn hvalid =>
      obtain ⟨w, hw⟩ := Option.isSome_iff_exists.mp hc
      have hopen : Reader.step (st.enter (.hexStart w place)) '\x7b' =
          .ok (st.enter (.hexBraced 0 0 place)) := rfl
      have hclose : Reader.step
          (st.enter (.hexBraced (0 + ds.length) n place)) '\x7d' =
          st.putEscaped place (.char (.ofNat n)) := by
        have hlen : (0 + ds.length == 0) = false := by
          simpa using hne
        show Reader.stepHexBraced _ _ _ _ _ = _
        rw [Reader.stepHexBraced, if_pos (beq_self_eq_true _), hlen,
          putCode_enter, State.putCode, if_pos hvalid]
        rfl
      rw [foldlM_step (hwidth hw), foldlM_step hopen,
        foldlM_ok (foldlM_hexBraced hn), List.foldlM_cons, hclose]
      exact bind_pure _

end

/-! ## Classes -/

section

variable {st : State} {negated : Bool} {is : List ClassItem} {c : Char}
  {ds : List Char}

theorem step_bracket (st : State) (b : OpenClass) (c : Char) :
    Reader.step (st.enter (.bracket b)) c =
      Reader.stepBracket (st.enter (.bracket b)) b c := rfl

/-- An atom is read where an item begins. -/
theorem ClassAtom.read {a : Atom} (h : ClassAtom ds a) (st : State)
    (negated : Bool) (is : List ClassItem) :
    ∃ plain, (plain = true → ∃ c, ds = [c]) ∧
      ds.foldlM Reader.step (st.enter (.bracket ⟨negated, is, .between⟩)) =
        .ok (st.enter (.bracket ⟨negated, is, .atom a plain⟩)) := by
  have hback : Reader.step (st.enter (.bracket ⟨negated, is, .between⟩)) '\\' =
      .ok (st.enter (.escape (.bracket ⟨negated, is, .between⟩))) := rfl
  cases h with
  | @plain c hc =>
      simp only [List.mem_cons, List.not_mem_nil, or_false, not_or] at hc
      refine ⟨true, fun _ => ⟨c, rfl⟩, ?_⟩
      have hstep : Reader.step (st.enter (.bracket ⟨negated, is, .between⟩)) c =
          .ok (st.enter (.bracket ⟨negated, is, .atom (.char c) true⟩)) := by
        show Reader.stepBetween _ _ c = _
        rw [Reader.stepBetween.eq_def]
        split
        · exact absurd rfl hc.1
        · exact absurd rfl hc.2.1
        · exact absurd rfl hc.2.2
        · rfl
      rw [foldlM_step hstep]
      rfl
  | char hx =>
      refine ⟨false, by simp, ?_⟩
      rw [foldlM_step hback, hx.read]
      rfl
  | property hx =>
      refine ⟨false, by simp, ?_⟩
      rw [foldlM_step hback, hx.read]
      rfl

/-- The end of a range is read behind the dash. -/
theorem RangeEnd.read {lo hi : Char} (h : RangeEnd ds hi) (hle : lo ≤ hi)
    (st : State) (negated : Bool) (is : List ClassItem) :
    ds.foldlM Reader.step
      (st.enter (.bracket ⟨negated, is, .dashed (.char lo)⟩)) =
        .ok (st.enter (.bracket ⟨negated, .range lo hi :: is, .between⟩)) := by
  cases h with
  | plain hc =>
      simp only [List.mem_cons, List.not_mem_nil, or_false, not_or] at hc
      have hstep : Reader.step
          (st.enter (.bracket ⟨negated, is, .dashed (.char lo)⟩)) hi =
          .ok (st.enter
            (.bracket ⟨negated, .range lo hi :: is, .between⟩)) := by
        simp only [step_bracket, Reader.stepBracket]
        split
        · exact absurd rfl hc.1
        · exact absurd rfl hc.2.1
        · exact absurd rfl hc.2.2
        · rw [OpenClass.addRange, if_pos hle]
          rfl
      rw [foldlM_step hstep]
      rfl
  | escaped hx =>
      have hback : Reader.step
          (st.enter (.bracket ⟨negated, is, .dashed (.char lo)⟩)) '\\' =
          .ok (st.enter
            (.escape (.bracket ⟨negated, is, .dashed (.char lo)⟩))) :=
        rfl
      rw [foldlM_step hback, hx.read]
      show Except.map _ (OpenClass.addRange _ _ _) = _
      rw [OpenClass.addRange, if_pos hle]
      rfl

/-- A character behind an atom, unless both are an operator. -/
theorem step_atom {a : Atom} {plain : Bool}
    (htwice : plain = true → a = .char c → isClassOperator c = false) :
    Reader.step (st.enter (.bracket ⟨negated, is, .atom a plain⟩)) c =
      if c == '-' then .ok (st.enter (.bracket ⟨negated, is, .dashed a⟩))
      else Reader.step
        (st.enter (.bracket ⟨negated, atomItem a :: is, .between⟩)) c := by
  cases a with
  | entry i => rfl
  | char d =>
      simp only [step_bracket, Reader.stepBracket]
      have hdoubled : ¬ (plain && isClassOperator d && c == d) = true := by
        rw [Bool.and_eq_true, Bool.and_eq_true, beq_iff_eq]
        rintro ⟨⟨hplain, hop⟩, rfl⟩
        rw [htwice hplain rfl] at hop
        cases hop
      rw [if_neg hdoubled]
      rfl

theorem ClassAtom.not_twice {a : Atom} {plain : Bool} (h : ClassAtom ds a)
    (hplain : plain = true → ∃ d, ds = [d])
    (hc : ∀ d, ds = [d] → isClassOperator d = true → c ≠ d) :
    plain = true → a = .char c → isClassOperator c = false := by
  rintro hp rfl
  obtain ⟨d, rfl⟩ := hplain hp
  cases h.eq_char
  by_contra hop
  exact hc c rfl (by simpa using hop) rfl

/-- A dash behind an atom, which is no dash. -/
theorem step_dash {a : Atom} {plain : Bool} (h : ClassAtom ds a)
    (hplain : plain = true → ∃ d, ds = [d]) (hdash : ds ≠ ['-']) :
    Reader.step (st.enter (.bracket ⟨negated, is, .atom a plain⟩)) '-' =
      .ok (st.enter (.bracket ⟨negated, is, .dashed a⟩)) := by
  have htwice := h.not_twice (c := '-') hplain
    (by rintro d hd - rfl; exact hdash hd)
  rw [step_atom htwice]
  rfl

/-- Items are read up to the bracket that closes the class. -/
theorem Items.read {cs : List Char} {js : List ClassItem} (h : Items cs js)
    (st : State) (negated : Bool) (is : List ClassItem) :
    (cs ++ [']']).foldlM Reader.step
      (st.enter (.bracket ⟨negated, is, .between⟩)) =
        .ok (st.closeClass ⟨negated, js.reverse ++ is, .between⟩) := by
  induction h generalizing is with
  | nil => rfl
  | @atom ds cs a js h hdash htwice hrest ih =>
      obtain ⟨plain, hplain, hread⟩ := h.read st negated is
      rw [List.append_assoc, foldlM_ok hread]
      obtain ⟨c, es, heq, hne, hop⟩ : ∃ c es, cs ++ [']'] = c :: es ∧ c ≠ '-' ∧
          (plain = true → a = .char c → isClassOperator c = false) := by
        cases cs with
        | nil => exact ⟨']', [], rfl, by decide, fun _ _ => rfl⟩
        | cons c es =>
            refine ⟨c, es ++ [']'], rfl, by simpa using hdash, ?_⟩
            exact h.not_twice hplain fun d hd hop => by
              simpa using htwice d hd hop
      have hrest := ih (atomItem a :: is)
      rw [heq] at hrest ⊢
      rw [List.foldlM_cons, step_atom hop, if_neg (by simpa using hne),
        ← List.foldlM_cons, hrest, List.reverse_cons, List.append_assoc]
      rfl
  | @range ds es cs lo hi js hlo hdash hhi hle hrest ih =>
      obtain ⟨plain, hplain, hread⟩ := hlo.read st negated is
      rw [List.append_assoc, foldlM_ok hread, List.cons_append,
        foldlM_step (step_dash hlo hplain hdash), List.append_assoc, foldlM_ok
          (hhi.read hle _ _ _), ih, List.reverse_cons, List.append_assoc]
      rfl
  | @dash ds a h hdash =>
      obtain ⟨plain, hplain, hread⟩ := h.read st negated is
      rw [List.append_assoc, foldlM_ok hread, List.cons_append,
        foldlM_step (step_dash h hplain hdash)]
      show Except.ok (st.closeClass _) = _
      rw [add_eq, add_eq]
      rfl

/-- A bracket that is not the first item closes the class. -/
theorem Items.head_ne {cs : List Char} {js : List ClassItem}
    (h : Items cs js) : cs.head? ≠ some ']' := by
  have hatom : ∀ {ds es : List Char} {a : Atom}, ClassAtom ds a →
      (ds ++ es).head? ≠ some ']' := by
    intro ds es a ha
    cases ha with
    | plain hc =>
        rintro heq
        cases heq
        exact hc (by simp)
    | char | property => simp
  cases h with
  | nil => simp
  | atom h => exact hatom h
  | range hlo => exact hatom hlo
  | dash h => exact hatom h

theorem step_opened (hc : c ≠ '^') : Reader.step (st.enter (.bracket {})) c =
    Reader.step (st.enter (.bracket ⟨false, [], .leading⟩)) c := by
  simp only [step_bracket, Reader.stepBracket]
  rw [if_neg (by simpa using hc)]
  rfl

theorem step_leading (hc : c ≠ '-') (hne : c = ']' → is ≠ []) :
    Reader.step (st.enter (.bracket ⟨negated, is, .leading⟩)) c =
      Reader.step (st.enter (.bracket ⟨negated, is, .between⟩)) c := by
  simp only [step_bracket, Reader.stepBracket, Reader.stepLeading]
  rw [if_neg (by simpa using hc), if_neg (by simpa using hne)]
  rfl

theorem foldlM_dashes (n : Nat) (is : List ClassItem) :
    (List.replicate n '-').foldlM Reader.step
      (st.enter (.bracket ⟨negated, is, .leading⟩)) =
        .ok (st.enter (.bracket
          ⟨negated, .replicate n (.range '-' '-') ++ is, .leading⟩)) := by
  induction n generalizing is with
  | zero => rfl
  | succ n ih =>
      have hstep : Reader.step
          (st.enter (.bracket ⟨negated, is, .leading⟩)) '-' =
          .ok (st.enter (.bracket
            ⟨negated, .range '-' '-' :: is, .leading⟩)) := rfl
      rw [List.replicate_succ, foldlM_step hstep, ih, List.replicate_succ',
        List.append_assoc]
      rfl

theorem Lead.read {cs : List Char} {is js : List ClassItem} (hlead : Lead cs is)
    (hitems : Items ds js) (hdash : cs ≠ [']'] → ds.head? ≠ some '-')
    (hne : cs ++ ds ≠ []) (st : State) (negated : Bool) :
    (cs ++ ds ++ [']']).foldlM Reader.step
      (st.enter (.bracket ⟨negated, [], .leading⟩)) =
        .ok (st.closeClass ⟨negated, (is ++ js).reverse, .between⟩) := by
  cases hlead with
  | bracket =>
      have hstep : Reader.step
          (st.enter (.bracket ⟨negated, [], .leading⟩)) ']' =
          .ok (st.enter (.bracket ⟨negated, [.range ']' ']'], .between⟩)) := rfl
      rw [List.append_assoc, List.singleton_append, foldlM_step hstep,
        hitems.read, List.reverse_append]
      rfl
  | dashes n =>
      obtain ⟨c, es, heq, hc, hbracket⟩ : ∃ c es, ds ++ [']'] = c :: es ∧
          c ≠ '-' ∧
          (c = ']' → List.replicate n (ClassItem.range '-' '-') ++ [] ≠ []) := by
        cases ds with
        | nil =>
            refine ⟨']', [], rfl, by decide, fun _ => ?_⟩
            simpa using hne
        | cons c es =>
            refine ⟨c, es ++ [']'], rfl, ?_, ?_⟩
            · simpa using hdash (by cases n <;> simp [List.replicate_succ])
            · rintro rfl
              exact absurd rfl hitems.head_ne
      have hread := hitems.read st negated
        (.replicate n (.range '-' '-') ++ [])
      rw [heq] at hread
      rw [List.append_assoc, foldlM_ok (foldlM_dashes n []), heq,
        List.foldlM_cons, step_leading hc hbracket, ← List.foldlM_cons, hread]
      simp

/-- A class is read up to its end. -/
theorem Class.read {js : List ClassItem}
    (h : Class ds negated js) (st : State) :
    (ds ++ [']']).foldlM Reader.step (st.enter (.bracket {})) =
      .ok (st.closeClass ⟨negated, js.reverse, .between⟩) := by
  cases h with
  | @plain cs ds is js hlead hitems hcaret hdash hne =>
      obtain ⟨c, es, heq⟩ := List.exists_cons_of_ne_nil hne
      have hread := hlead.read hitems hdash hne st false
      rw [heq] at hread hcaret ⊢
      rw [List.cons_append, List.foldlM_cons,
        step_opened (by simpa using hcaret), ← List.foldlM_cons]
      exact hread
  | negated hlead hitems hdash hne =>
      have hstep : Reader.step (st.enter (.bracket {})) '^' =
          .ok (st.enter (.bracket ⟨true, [], .leading⟩)) := rfl
      rw [List.cons_append, foldlM_step hstep, hlead.read hitems hdash hne]

end

/-! ## Members that match one character or none -/

theorem step_items {st : State} (hmode : st.mode = .items) (c : Char) :
    Reader.step st c = Reader.stepItems st c := by
  rw [Reader.step.eq_def, hmode]

theorem Single.read {st : State} {ds : List Char} {g : Form}
    (h : Single st.flags ds g) (hmode : st.mode = .items) :
    ∃ depth, ds.foldlM Reader.step st = .ok (st.push { body := g, depth }) := by
  have hone : ∀ {c : Char} {g : Form},
      Reader.stepItems st c = .ok (st.push { body := g }) →
      ∃ depth, [c].foldlM Reader.step st =
        .ok (st.push { body := g, depth }) := by
    intro c g hc
    exact ⟨0, by rw [foldlM_step (by rw [step_items hmode, hc])]; rfl⟩
  cases h with
  | @char c hc =>
      refine hone ?_
      simp only [special, List.mem_cons, List.not_mem_nil,
        or_false, not_or] at hc
      rw [Reader.stepItems.eq_def]
      split
      all_goals simp_all only [not_true_eq_false, false_and, and_false]
      rfl
  | dot => exact hone rfl
  | caret => exact hone rfl
  | dollar => exact hone rfl
  | @escape ds x hx =>
      have hstep : Reader.step st '\\' = .ok (st.enter (.escape .items)) :=
        step_items hmode _
      refine ⟨0, ?_⟩
      rw [foldlM_step hstep, hx.read]
      cases x <;> rfl
  | «class» h =>
      have hstep : Reader.step st '[' = .ok (st.enter (.bracket {})) :=
        step_items hmode _
      rw [foldlM_step hstep, h.read, State.closeClass, List.reverse_reverse]
      exact ⟨_, rfl⟩

/-! ## Repetitions -/

theorem decimalValue?_of_isWhite {c : Char} (h : Text.isWhite c = true) :
    Text.decimalValue? c = none := by
  rw [Text.decimalValue?, if_neg]
  intro hdigit
  have hword : Text.isAsciiWord c = true := by
    simp [Text.isAsciiWord, Char.isAlphanum, hdigit]
  rw [Token.isWhite_of_isAsciiWord hword] at h
  cases h

/-- The part of a count that is being read, behind the lower bound if that has
been read. -/
def countSide : Option Nat → Option Nat → Bool → Reader.Count
  | none, n, ended => .low n ended
  | some m, n, ended => .high m n ended

section

variable (st : State) (side : Option Nat)

theorem step_count (k : Reader.Count) (c : Char) :
    Reader.step (st.enter (.count k)) c =
      Reader.stepCount (st.enter (.count k)) k c := rfl

theorem step_digit {c : Char} {d : Nat} (hd : Text.decimalValue? c = some d)
    (n : Option Nat) :
    Reader.step (st.enter (.count (countSide side n false))) c =
      .ok (st.enter (.count
        (countSide side (some (10 * n.getD 0 + d)) false))) := by
  rw [step_count]
  cases side <;> cases n <;> simp [countSide, Reader.stepCount, hd] <;> rfl

theorem step_white {c : Char} (hc : Text.isWhite c = true) (n : Option Nat)
    (ended : Bool) :
    Reader.step (st.enter (.count (countSide side n ended))) c =
      .ok (st.enter (.count (countSide side n n.isSome))) := by
  rw [step_count]
  have hd := decimalValue?_of_isWhite hc
  cases side <;> cases n <;> simp [countSide, Reader.stepCount, hd, hc] <;> rfl

theorem foldlM_white {us : List Char} (hus : ∀ c ∈ us, Text.isWhite c = true)
    (n : Option Nat) (ended : Bool) :
    ∃ ended', (n = none → ended = false → ended' = false) ∧
      us.foldlM Reader.step (st.enter (.count (countSide side n ended))) =
        .ok (st.enter (.count (countSide side n ended'))) := by
  induction us generalizing ended with
  | nil => exact ⟨ended, fun _ h => h, rfl⟩
  | cons u us ih =>
      obtain ⟨ended', hnone, hread⟩ :=
        ih (fun c hc => hus c (List.mem_cons_of_mem _ hc)) n.isSome
      refine ⟨ended', fun hn _ => hnone hn (by rw [hn]; rfl), ?_⟩
      rw [foldlM_step (step_white st side (hus u List.mem_cons_self) n ended),
        hread]

theorem foldlM_digits {ds : List Char} {m n : Nat}
    (hn : ds.foldlM (fun n c => (Text.decimalValue? c).map (10 * n + ·)) m =
      some n) :
    ds.foldlM Reader.step (st.enter (.count (countSide side (some m) false))) =
      .ok (st.enter (.count (countSide side (some n) false))) := by
  induction ds generalizing m with
  | nil =>
      cases hn
      rfl
  | cons d ds ih =>
      obtain ⟨v, hd, hn⟩ := Option.bind_eq_some_iff.mp hn
      obtain ⟨x, hx, rfl⟩ := Option.map_eq_some_iff.mp hd
      rw [foldlM_step (step_digit st side hx (some m))]
      exact ih hn

/-- A number is read. -/
theorem Number.read {ds : List Char} {n : Nat} (h : Number ds n) :
    ∃ ended, ds.foldlM Reader.step
      (st.enter (.count (countSide side none false))) =
        .ok (st.enter (.count (countSide side (some n) ended))) := by
  cases h with
  | @mk us ds vs _ hus hne hn hvs =>
      cases ds with
      | nil => exact absurd rfl hne
      | cons d ds =>
          obtain ⟨v, hd, hn⟩ := Option.bind_eq_some_iff.mp hn
          obtain ⟨x, hx, rfl⟩ := Option.map_eq_some_iff.mp hd
          obtain ⟨ended, hnone, hwhite⟩ := foldlM_white st side hus none false
          obtain ⟨ended', -, hwhite'⟩ := foldlM_white st side hvs (some n) false
          cases hnone rfl rfl
          have hfirst : Reader.step
              (st.enter (.count (countSide side none false))) d = .ok (st.enter
                (.count (countSide side (some (10 * 0 + x)) false))) :=
            step_digit st side hx none
          refine ⟨ended', ?_⟩
          rw [List.append_assoc, foldlM_ok hwhite, List.cons_append,
            foldlM_step hfirst, foldlM_ok (foldlM_digits st side hn), hwhite']

theorem Number.head_ne {ds : List Char} {n : Nat} (h : Number ds n) :
    ∃ c cs, ds = c :: cs ∧ c ≠ '\x7d' := by
  cases h with
  | @mk us ds vs _ hus hne hn hvs =>
      cases us with
      | cons u us =>
          refine ⟨u, _, rfl, ?_⟩
          rintro rfl
          exact absurd (hus _ List.mem_cons_self) (by decide)
      | nil =>
          cases ds with
          | nil => exact absurd rfl hne
          | cons d ds =>
              obtain ⟨v, hd, -⟩ := Option.bind_eq_some_iff.mp hn
              refine ⟨d, _, rfl, ?_⟩
              rintro rfl
              cases hd

theorem step_number_end (n : Nat) (ended : Bool) :
    Reader.step (st.enter (.count (countSide side (some n) ended))) '\x7d' =
      st.counted (side.getD n) (some n) := by
  cases side <;> rfl

theorem step_comma (n : Nat) (ended : Bool) :
    Reader.step (st.enter (.count (countSide none (some n) ended))) ',' =
      .ok (st.enter (.count (.comma n))) := rfl

/-- Behind the comma an upper bound begins. -/
theorem step_upper {c : Char} (m : Nat) (hc : c ≠ '\x7d') :
    Reader.step (st.enter (.count (.comma m))) c =
      Reader.step (st.enter (.count (countSide (some m) none false))) c := by
  rw [step_count, step_count]
  simp only [countSide, Reader.stepCount]
  cases Text.decimalValue? c with
  | some d => rfl
  | none =>
      have hne : (c == '\x7d') = false := by simpa using hc
      simp only [hne]
      rfl

end

/-- A count is read up to its end. -/
theorem Count.read {ds : List Char} {lo : Nat} {hi : Option Nat}
    (h : Count ds lo hi) (st : State) : (ds ++ ['\x7d']).foldlM Reader.step
      (st.enter (.count (countSide none none false))) = st.counted lo hi := by
  cases h with
  | exactly h =>
      obtain ⟨ended, hread⟩ := h.read st none
      rw [foldlM_ok hread, List.foldlM_cons, step_number_end]
      exact bind_pure _
  | atLeast h =>
      obtain ⟨ended, hread⟩ := h.read st none
      rw [List.append_assoc, foldlM_ok hread, List.cons_append,
        foldlM_step (step_comma st _ ended)]
      exact bind_pure _
  | @between ds es _ n h h' =>
      obtain ⟨ended, hread⟩ := h.read st none
      obtain ⟨ended', hread'⟩ := h'.read st (some lo)
      have hupper : (es ++ ['\x7d']).foldlM Reader.step
          (st.enter (.count (.comma lo))) =
          (es ++ ['\x7d']).foldlM Reader.step
            (st.enter (.count (countSide (some lo) none false))) := by
        obtain ⟨c, cs, rfl, hc⟩ := h'.head_ne
        rw [List.cons_append, List.foldlM_cons, step_upper st lo hc]
        rfl
      rw [List.append_assoc, foldlM_ok hread, List.cons_append,
        foldlM_step (step_comma st _ ended), hupper, foldlM_ok hread',
        List.foldlM_cons, step_number_end]
      exact bind_pure _

/-- A sign of repetition is read behind what it repeats. -/
theorem Quantifier.read {ds : List Char} {lo : Nat} {hi : Option Nat}
    (h : Quantifier ds lo hi) {st : State} (hmode : st.mode = .items)
    (hitems : st.items.head?.any (·.repeatable) = true)
    (hlazy : st.lazyable = true → ds ≠ ['?']) :
    ds.foldlM Reader.step st = st.quantify lo hi := by
  have hone : ∀ {c : Char},
      Reader.stepItems st c = st.quantify lo hi →
      [c].foldlM Reader.step st = st.quantify lo hi := by
    intro c hc
    rw [List.foldlM_cons, step_items hmode, hc]
    exact bind_pure _
  cases h with
  | star => exact hone rfl
  | plus => exact hone rfl
  | option =>
      refine hone ?_
      have hno : st.lazyable = false := by simpa using hlazy
      simp only [Reader.stepItems, hno]
      rfl
  | @counted ds _ _ hcount hlo hhi =>
      have hopen : Reader.step st '\x7b' =
          .ok (st.enter (.count (countSide none none false))) := by
        rw [step_items hmode]
        cases hst : st.items with
        | nil =>
            rw [hst] at hitems
            cases hitems
        | cons x xs =>
            rw [hst] at hitems
            simp only [Reader.stepItems, hst]
            exact if_pos hitems
      have hbounds : ¬ (maxCount < lo || hi.any (maxCount < ·) ||
          hi.any (· < lo)) = true := by
        simp only [Bool.or_eq_true, decide_eq_true_eq, not_or, Nat.not_lt,
          Option.any_eq_true, not_exists, not_and]
        exact ⟨⟨hlo, fun n hn => (hhi n hn).1⟩, fun n hn => (hhi n hn).2⟩
      rw [foldlM_step hopen, hcount.read, State.counted]
      exact if_neg (by simpa using hbounds)

/-! ## Groups -/

section

variable {st : State} {ds : List Char}

theorem step_flag {c : Char} {x : FlagItem} {before : List FlagItem}
    (hx : flagItem? c = some x) (hfresh : x ∉ before) :
    Reader.step (st.enter (.groupFlags before)) c =
      .ok (st.enter (.groupFlags (x :: before))) := by
  show Reader.stepFlags _ _ c = _
  rw [Reader.stepFlags.eq_def]
  split
  · cases hx
  · cases hx
  · rw [hx]
    simp only [List.contains_eq_mem, hfresh, decide_false]
    rfl

theorem foldlM_flags {given before : List FlagItem}
    (hds : ds.mapM flagItem? = some given)
    (hnodup : (before.reverse ++ given).Nodup) :
    ds.foldlM Reader.step (st.enter (.groupFlags before)) =
      .ok (st.enter (.groupFlags (given.reverse ++ before))) := by
  induction ds generalizing given before with
  | nil =>
      cases hds
      rfl
  | cons d ds ih =>
      rw [List.mapM_cons] at hds
      obtain ⟨x, hx, hds⟩ := Option.bind_eq_some_iff.mp hds
      obtain ⟨rest, hrest, heq⟩ := Option.bind_eq_some_iff.mp hds
      cases heq
      have hfresh : x ∉ before := by
        rw [List.nodup_append] at hnodup
        intro hmem
        exact hnodup.2.2 x (by simpa using hmem) x (by simp) rfl
      rw [foldlM_step (step_flag hx hfresh), ih hrest (by simpa using hnodup)]
      simp

theorem step_question {c : Char} (hp : c ≠ 'P') (hangle : c ≠ '<') :
    Reader.step (st.enter .groupQuestion) c =
      Reader.step (st.enter (.groupFlags [])) c := by
  rw [Reader.step.eq_def]
  simp only [State.enter]
  rfl

/-- The switches in the head of a group are read up to a character that is
none. -/
theorem Switches.read {given : List FlagItem} (h : Switches ds given)
    (hmode : st.mode = .items) {c : Char} (hc : c ∈ [':', ')']) :
    ("(?".toList ++ ds ++ [c]).foldlM Reader.step st =
      Reader.step (st.enter (.groupFlags given.reverse)) c := by
  have hopen : Reader.step st '(' = .ok (st.enter .groupStart) :=
    step_items hmode _
  have hmark : Reader.step (st.enter .groupStart) '?' =
      .ok (st.enter .groupQuestion) := rfl
  obtain ⟨d, es, heq, hp, hangle⟩ : ∃ d es, ds ++ [c] = d :: es ∧ d ≠ 'P' ∧
      d ≠ '<' := by
    cases ds with
    | nil =>
        refine ⟨c, [], rfl, ?_, ?_⟩
        all_goals
          rintro rfl
          simp at hc
    | cons d ds =>
        have hwritten := h.written
        rw [List.mapM_cons] at hwritten
        obtain ⟨x, hx, -⟩ := Option.bind_eq_some_iff.mp hwritten
        refine ⟨d, ds ++ [c], rfl, ?_, ?_⟩
        all_goals
          rintro rfl
          cases hx
  have hread : ds.foldlM Reader.step (st.enter (.groupFlags [])) =
      .ok (st.enter (.groupFlags (given.reverse ++ []))) :=
    foldlM_flags h.written h.nodup
  have hall : (ds ++ [c]).foldlM Reader.step (st.enter .groupQuestion) =
      Reader.step (st.enter (.groupFlags given.reverse)) c := by
    rw [heq, List.foldlM_cons, step_question hp hangle, ← List.foldlM_cons,
      ← heq, foldlM_ok hread, List.append_nil]
    exact bind_pure _
  rw [List.append_assoc]
  show ('(' :: '?' :: (ds ++ [c])).foldlM Reader.step st = _
  rw [foldlM_step hopen, foldlM_step hmark, hall]

theorem stepFlags_not_dangling {given : List FlagItem} (h : Switches ds given) :
    (given.reverse.head? == some .minus) = false := by
  rw [List.head?_reverse, beq_eq_false_iff_ne]
  exact h.settled

/-- A name of a group is read up to its end. -/
theorem foldlM_name {name : List Char} (hname : isName name = true)
    (hfresh : some name ∉ st.names) :
    (name ++ ['>']).foldlM Reader.step (st.enter (.groupName [])) =
      .ok (st.openCapture (some name)) := by
  have hread : name.foldlM Reader.step (st.enter (.groupName [])) =
      .ok (st.enter (.groupName name.reverse)) := Reader.foldlM_groupName hname
  have hne : name.reverse.isEmpty = false := by
    cases name with
    | nil => cases hname
    | cons => simp
  have hnew : st.names.contains (some name) = false := by simpa using hfresh
  have hclose : Reader.step (st.enter (.groupName name.reverse)) '>' =
      .ok (st.openCapture (some name)) := by
    show Reader.stepName _ name.reverse '>' = _
    rw [Reader.stepName, if_pos (beq_self_eq_true _), hne, List.reverse_reverse]
    show (if st.names.contains (some name) = true then _ else _) = _
    rw [hnew]
    rfl
  rw [foldlM_ok hread, foldlM_step hclose]
  rfl

/-- The head of a group is read, up to the first character inside. -/
theorem Head.read {u : Context} {hs : List Char} {capture : Option Nat}
    (h : Head ⟨st.flags, st.names.reverse⟩ hs capture u)
    (hmode : st.mode = .items) {c : Char} (hc : c ≠ '?') (cs : List Char) :
    (hs ++ c :: cs).foldlM Reader.step st = (c :: cs).foldlM Reader.step
      { st.openGroup capture u.flags with names := u.names.reverse } := by
  have hopen : Reader.step st '(' = .ok (st.enter .groupStart) :=
    step_items hmode _
  cases h with
  | capture =>
      have hfirst : Reader.step (st.enter .groupStart) c =
          Reader.step (st.openCapture none) c := by
        show (if (c == '?') = true then _ else _) = _
        rw [if_neg (by simpa using hc)]
        rfl
      rw [List.cons_append, foldlM_step hopen, List.nil_append,
        List.foldlM_cons, hfirst]
      simp [State.openCapture]
  | @named lead name hlead hname hfresh =>
      have hlead' :
          ∀ es : List Char, (lead ++ (name ++ es)).foldlM Reader.step st =
          (name ++ es).foldlM Reader.step (st.enter (.groupName [])) := by
        intro es
        have hmark : Reader.step (st.enter .groupStart) '?' =
            .ok (st.enter .groupQuestion) := rfl
        simp only [List.mem_cons, List.not_mem_nil, or_false] at hlead
        rcases hlead with rfl | rfl
        · show ('(' :: '?' :: 'P' :: '<' :: (name ++ es)).foldlM
            Reader.step st = _
          rw [foldlM_step hopen, foldlM_step hmark]
          rfl
        · show ('(' :: '?' :: '<' :: (name ++ es)).foldlM Reader.step st = _
          cases name with
          | nil => cases hname
          | cons d name =>
              rw [foldlM_step hopen, foldlM_step hmark]
              rfl
      have hread :
          (name ++ ['>']).foldlM Reader.step (st.enter (.groupName [])) =
          .ok (st.openCapture (some name)) :=
        foldlM_name hname (by simpa using hfresh)
      rw [List.append_assoc, List.append_assoc, hlead', ← List.append_assoc,
        foldlM_ok hread]
      simp [State.openCapture]
  | @plain ds given h =>
      have hclose : ("(?".toList ++ ds ++ [':']).foldlM Reader.step st =
          .ok (st.openGroup none (changeFlags st.flags given.reverse)) := by
        rw [h.read hmode (by simp)]
        show Reader.stepFlags _ _ ':' = _
        simp only [Reader.stepFlags, stepFlags_not_dangling h]
        rfl
      rw [foldlM_ok hclose, List.reverse_reverse]
      rfl

end

/-! ## Members and branches -/

theorem Single.head_ne {f : Flags} {ds : List Char} {g : Form}
    (h : Single f ds g) (es : List Char) : (ds ++ es).head? ≠ some '?' ∧
      ds ≠ [] := by
  cases h with
  | char hc =>
      refine ⟨?_, List.cons_ne_nil _ _⟩
      rintro heq
      cases heq
      exact hc (by simp [special])
  | dot | caret | dollar | escape | «class» => simp

theorem Quantifier.ne_nil {ds : List Char} {lo : Nat} {hi : Option Nat}
    (h : Quantifier ds lo hi) : ds ≠ [] := by
  cases h <;> exact List.cons_ne_nil _ _

theorem Head.head_ne {t u : Context} {hs : List Char} {capture : Option Nat}
    (h : Head t hs capture u) (es : List Char) :
    (hs ++ es).head? ≠ some '?' ∧ hs ≠ [] := by
  cases h with
  | capture => simp
  | named hlead =>
      simp only [List.mem_cons, List.not_mem_nil, or_false] at hlead
      rcases hlead with rfl | rfl <;> simp
  | plain => simp

/-- A question mark needs something in front of it. -/
theorem Parts.head_ne {s t : Context} {cs : List Char} {gs fs : List Form}
    {e : Ending} (h : Parts s cs gs fs t e) :
    cs.head? ≠ some '?' ∧ (fs ≠ [] → cs ≠ []) := by
  have hboth : ∀ {cs ds : List Char}, cs.head? ≠ some '?' →
      ds.head? ≠ some '?' → (cs ++ ds).head? ≠ some '?' := by
    intro cs ds hcs hds
    cases cs with
    | nil => exact hds
    | cons => exact hcs
  have hfirst : ∀ {cs ds : List Char}, cs.head? ≠ some '?' → cs ≠ [] →
      (cs ++ ds).head? ≠ some '?' := by
    intro cs ds hcs hne
    cases cs with
    | nil => exact absurd rfl hne
    | cons => exact hcs
  induction h with
  | start => simp
  | bar h ih => exact ⟨hboth ih.1 (by simp), by simp⟩
  | @single _ _ cs ds _ _ _ _ h hf ih =>
      have hds := (hf.head_ne []).1
      rw [List.append_nil] at hds
      exact ⟨hboth ih.1 hds, by simp [(hf.head_ne []).2]⟩
  | repeated h he hq hlazy ih =>
      exact ⟨hfirst ih.1 (ih.2 (by simp)), by simp [hq.ne_nil]⟩
  | lazily h he hq hlazy ih =>
      rw [List.append_assoc]
      exact ⟨hfirst ih.1 (ih.2 (by simp)), by simp⟩
  | switches h hf hne ih =>
      rw [List.append_assoc, List.append_assoc]
      exact ⟨hboth ih.1 (by simp), by simp⟩
  | group h hhead hbody ih ihbody =>
      rw [List.append_assoc, List.append_assoc]
      exact ⟨hboth ih.1 (hhead.head_ne _).1, by simp⟩

/-- The state that has read a text from the beginning of a group. -/
structure Reached (groups : List OpenGroup) (s : Context) (cs : List Char)
    (gs fs : List Form) (t : Context) (e : Ending) (st : State) : Prop where
  read : cs.foldlM Reader.step
    { groups, flags := s.flags, names := s.names.reverse } = .ok st
  mode : st.mode = .items
  groups : st.groups = groups
  branches : forms st.branches = gs
  items : forms st.items = fs
  context : ⟨st.flags, st.names.reverse⟩ = t
  ends : Ends st.items e
  lazyable : st.lazyable = true ↔ e = .repetition

namespace Reached

variable {groups : List OpenGroup} {s t : Context} {cs ds : List Char}
  {gs fs : List Form} {e : Ending} {st : State}

theorem extend (h : Reached groups s cs gs fs t e st) {st' : State}
    (hs : ds.foldlM Reader.step st = .ok st') : (cs ++ ds).foldlM Reader.step
      { groups, flags := s.flags, names := s.names.reverse } = .ok st' := by
  rw [foldlM_ok h.read, hs]

theorem bar (h : Reached groups s cs gs fs t e st) :
    Reached groups s (cs ++ ['|']) (gs ++ [sequenceForm fs]) [] t .nothing
      st.nextBranch where
  read := by
    rw [foldlM_ok h.read, foldlM_step (step_items h.mode _)]
    rfl
  mode := h.mode
  groups := h.groups
  branches := by
    rw [State.nextBranch, forms_cons, sequence_form, h.branches, h.items]
  items := rfl
  context := h.context
  ends := by simp [Ends, State.nextBranch]
  lazyable := by simp [State.nextBranch]

theorem single (h : Reached groups s cs gs fs t e st) {f : Form}
    (hf : Single t.flags ds f) :
    ∃ st', Reached groups s (cs ++ ds) gs (fs ++ [f]) t .member st' := by
  rw [← h.context] at hf
  obtain ⟨depth, hstep⟩ := hf.read h.mode
  exact ⟨st.push { body := f, depth }, {
    read := h.extend hstep
    mode := rfl
    groups := h.groups
    branches := h.branches
    items := by
      rw [State.push, forms_cons, h.items]
      rfl
    context := h.context
    ends := by simp [Ends, State.push]
    lazyable := by simp [State.push] }⟩

/-- A repetition, which still may be made lazy. -/
theorem repeated {f : Form} (h : Reached groups s cs gs (fs ++ [f]) t e st)
    {lo : Nat} {hi : Option Nat} (he : e ≠ .nothing) (hq : Quantifier ds lo hi)
    (hlazy : e = .repetition → ds ≠ ['?']) :
    ∃ st' depth xs, st'.items =
        { body := f, rounds := some ⟨lo, hi, true⟩, depth } :: xs ∧
      forms xs = fs ∧
      Reached groups s (cs ++ ds) gs (fs ++ [.repeated lo hi true f]) t
        .repetition st' := by
  have hends := h.ends.mpr he
  have hitems := h.items
  cases hst : st.items with
  | nil =>
      rw [hst] at hends
      cases hends
  | cons x xs =>
      rw [hst, forms_cons] at hitems
      obtain ⟨rfl, hx⟩ := List.append_inj' hitems rfl
      cases hx
      have hrepeatable : x.repeatable = true := by
        rw [hst] at hends
        exact hends
      have hstep := hq.read h.mode hends fun hyes => hlazy (h.lazyable.mp hyes)
      rw [State.quantify, hst] at hstep
      simp only [hrepeatable, if_true] at hstep
      refine ⟨_, x.depth + 1, xs, ?_, rfl, {
        read := h.extend hstep
        mode := rfl
        groups := h.groups
        branches := h.branches
        items := forms_cons _ _
        context := h.context
        ends := by simp [Ends]
        lazyable := by simp }⟩
      rfl

theorem lazily {f : Form} {lo : Nat} {hi : Option Nat} {depth : Nat}
    {xs : List Item}
    (h : Reached groups s cs gs (fs ++ [.repeated lo hi true f]) t
      .repetition st)
    (hitems : st.items =
      { body := f, rounds := some ⟨lo, hi, true⟩, depth } :: xs)
    (hxs : forms xs = fs) :
    ∃ st', Reached groups s (cs ++ ['?']) gs (fs ++ [.repeated lo hi false f]) t
      .member st' := by
  have hstep : Reader.step st '?' = .ok st.makeLazy := by
    rw [step_items h.mode]
    exact if_pos (h.lazyable.mpr rfl)
  rw [State.makeLazy, hitems] at hstep
  exact ⟨{ st with
      items := { body := f, rounds := some ⟨lo, hi, false⟩, depth } :: xs
      lazyable := false }, {
    read := by
      rw [foldlM_ok h.read, foldlM_step hstep]
      rfl
    mode := h.mode
    groups := h.groups
    branches := h.branches
    items := by
      rw [forms_cons, hxs]
      rfl
    context := h.context
    ends := by simp [Ends]
    lazyable := by simp }⟩

theorem switches (h : Reached groups s cs gs fs t e st) {given : List FlagItem}
    (hds : Switches ds given) (hne : given ≠ []) :
    ∃ st', Reached groups s (cs ++ "(?".toList ++ ds ++ [')']) gs
      (fs ++ [.empty]) ⟨changeFlags t.flags given.reverse, t.names⟩ .nothing
      st' := by
  obtain rfl := h.context
  have hstep : ("(?".toList ++ ds ++ [')']).foldlM Reader.step st =
      .ok ({ st with flags := changeFlags st.flags given.reverse }.push
        { body := .empty, repeatable := false }) := by
    rw [hds.read h.mode (by simp)]
    show Reader.stepFlags _ _ ')' = _
    have hempty : given.reverse.isEmpty = false := by simpa using hne
    simp only [Reader.stepFlags, stepFlags_not_dangling hds, hempty]
    rfl
  have hread := h.extend hstep
  rw [← List.append_assoc, ← List.append_assoc] at hread
  exact ⟨_, {
    read := hread
    mode := rfl
    groups := h.groups
    branches := h.branches
    items := by
      rw [State.push, forms_cons]
      exact congrArg (· ++ [Form.empty]) h.items
    context := rfl
    ends := by simp [Ends, State.push]
    lazyable := by simp [State.push] }⟩

/-- A group, when its inside has been read. -/
theorem group (h : Reached groups s cs gs fs t e st) {u v : Context}
    {hs : List Char} {capture : Option Nat} {gs' fs' : List Form} {e' : Ending}
    {st' : State} (hhead : Head t hs capture u)
    (hne : ∃ c es, ds ++ [')'] = c :: es ∧ c ≠ '?')
    (hbody : Reached
      (⟨capture, st.items, st.branches, st.flags⟩ :: groups) u ds gs' fs' v e'
      st') :
    ∃ st'', Reached groups s (cs ++ hs ++ ds ++ [')']) gs
      (fs ++ [groupForm capture (choiceForm (gs' ++ [sequenceForm fs']))])
      ⟨t.flags, v.names⟩ .member st'' := by
  obtain rfl := h.context
  obtain rfl := hbody.context
  obtain rfl := h.groups
  obtain ⟨c, es, heq, hc⟩ := hne
  have hopen : (hs ++ (ds ++ [')'])).foldlM Reader.step st =
      Reader.step st' ')' := by
    rw [heq, hhead.read h.mode hc, ← heq]
    exact (foldlM_ok hbody.read [')']).trans (bind_pure _)
  have hclose : Reader.step st' ')' = st'.closeGroup := step_items hbody.mode _
  rw [State.closeGroup, hbody.groups] at hclose
  have hread := h.extend (hopen.trans hclose)
  rw [← List.append_assoc, ← List.append_assoc] at hread
  exact ⟨_, {
    read := hread
    mode := rfl
    groups := rfl
    branches := h.branches
    items := by
      have hinner := content_form st'
      rw [hbody.branches, hbody.items] at hinner
      rw [forms_cons, h.items, ← hinner]
      cases capture <;> rfl
    context := rfl
    ends := by simp [Ends]
    lazyable := by simp }⟩

end Reached

/-- A text of the grammar is read from the beginning of a group. -/
theorem Parts.read {s t : Context} {cs : List Char} {gs fs : List Form}
    {e : Ending} (h : Parts s cs gs fs t e) (groups : List OpenGroup) :
    ∃ st, Reached groups s cs gs fs t e st := by
  induction h generalizing groups with
  | start s =>
      exact ⟨_, ⟨rfl, rfl, rfl, rfl, rfl, by simp, by simp [Ends], by simp⟩⟩
  | bar h ih =>
      obtain ⟨st, hst⟩ := ih groups
      exact ⟨_, hst.bar⟩
  | single h hf ih =>
      obtain ⟨st, hst⟩ := ih groups
      exact hst.single hf
  | repeated h he hq hlazy ih =>
      obtain ⟨st, hst⟩ := ih groups
      obtain ⟨st', _, _, -, -, hst'⟩ := hst.repeated he hq hlazy
      exact ⟨st', hst'⟩
  | lazily h he hq hlazy ih =>
      obtain ⟨st, hst⟩ := ih groups
      obtain ⟨st', _, _, hitems, hxs, hst'⟩ := hst.repeated he hq hlazy
      exact hst'.lazily hitems hxs
  | switches h hf hne ih =>
      obtain ⟨st, hst⟩ := ih groups
      exact hst.switches hf hne
  | @group cs hs ds gs fs gs' fs' s t u v e e' capture h hhead
      hbody ih ihbody =>
      obtain ⟨st, hst⟩ := ih groups
      obtain ⟨st', hst'⟩ := ihbody
        (⟨capture, st.items, st.branches, st.flags⟩ :: groups)
      refine hst.group hhead ?_ hst'
      cases ds with
      | nil => exact ⟨')', [], rfl, by decide⟩
      | cons c es => exact ⟨c, es ++ [')'], rfl, by simpa using hbody.head_ne.1⟩

/-- What a text stands for is what it is parsed into, if it is not nested too
deep. -/
theorem StandsFor.parse {f : Flags} {source : List Char} {form : Form}
    {names : List (Option (List Char))} (h : StandsFor f source form names) :
    Reader.parse f source = .ok (form, names) ∨
      Reader.parse f source = .error .tooDeep := by
  obtain ⟨gs, fs, t, e, hparts, rfl, rfl⟩ := h
  obtain ⟨st, hst⟩ := hparts.read []
  obtain rfl := hst.context
  have hread : source.foldlM Reader.step { flags := f } = .ok st := hst.read
  rw [Reader.parse, hread]
  show Reader.finish st = _ ∨ Reader.finish st = _
  rw [Reader.finish.eq_def, hst.mode, hst.groups]
  simp only
  split
  · exact .inr rfl
  · rw [content_form, hst.branches, hst.items]
    exact .inl rfl

/-- A text that is parsed stands for one form only. -/
theorem standsFor_iff {f : Flags} {source : List Char} {form : Form}
    {names : List (Option (List Char))}
    (h : Reader.parse f source = .ok (form, names)) (form' : Form)
    (names' : List (Option (List Char))) :
    StandsFor f source form' names' ↔ form' = form ∧ names' = names := by
  constructor
  · intro hstands
    rcases hstands.parse with hparse | hparse
    · rw [h] at hparse
      cases hparse
      exact ⟨rfl, rfl⟩
    · rw [h] at hparse
      cases hparse
  · rintro ⟨rfl, rfl⟩
    exact standsFor_of_parse h

end Codemod.Pattern.Grammar
