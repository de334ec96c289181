import Codemod.Proofs.Spell

/-!
# What forms spell

The functions that put forms together keep them normal, and that hides what
they mean: texts are merged, sequences flattened, repetitions rewritten. The
lemmas of this module say that none of it matters for what is spelled. `Same`
relates expressions that spell the same words with the same marks, `chain` is
the plain sequence, and `sequence_same` and `repeated_same` bring the forms of
the reader back to these.
-/

namespace Codemod.Pattern

/-- Two expressions spell the same words in the same places, with the same
marks. -/
def Same (r s : Regex) : Prop :=
  ∀ i b w a ms, Spells r i b w a ms ↔ Spells s i b w a ms

theorem Same.refl (r : Regex) : Same r r := fun _ _ _ _ _ => Iff.rfl

theorem Same.symm {r s : Regex} (h : Same r s) : Same s r :=
  fun i b w a ms => (h i b w a ms).symm

theorem Same.trans {r s t : Regex} (h : Same r s) (h' : Same s t) : Same r t :=
  fun i b w a ms => (h i b w a ms).trans (h' i b w a ms)

theorem Takes.same {text : Array Char} {r s : Regex} {i j : Nat} {ms : Marks}
    (h : Takes text r i j ms) (hs : Same r s) : Takes text s i j ms :=
  ⟨h.le, h.le_size, (hs _ _ _ _ _).mp h.spells⟩

theorem spells_empty {i : Nat} {b a : Option Char}
    {w : List Char} {ms : Marks} :
    Spells .empty i b w a ms ↔ w = [] ∧ ms = [] := by
  constructor
  · intro h
    cases h
    exact ⟨rfl, rfl⟩
  · rintro ⟨rfl, rfl⟩
    exact .empty

theorem spells_one {s : CharSet} {i : Nat}
    {b a : Option Char} {w : List Char} {ms : Marks} :
    Spells (.one s) i b w a ms ↔ ∃ c, s.has c = true ∧ w = [c] ∧ ms = [] := by
  constructor
  · intro h
    cases h with
    | one hs => exact ⟨_, hs, rfl, rfl⟩
  · rintro ⟨c, hs, rfl, rfl⟩
    exact .one hs

theorem spells_look {x : Anchor} {i : Nat}
    {b a : Option Char} {w : List Char} {ms : Marks} :
    Spells (.look x) i b w a ms ↔ x.holds b a = true ∧ w = [] ∧ ms = [] := by
  constructor
  · intro h
    cases h with
    | look hx => exact ⟨hx, rfl, rfl⟩
  · rintro ⟨hx, rfl, rfl⟩
    exact .look hx

theorem spells_group {g : Nat} {r : Regex} {i : Nat} {b a : Option Char}
    {w : List Char} {l : Marks} : Spells (.group g r) i b w a l ↔
      ∃ ms, Spells r i b w a ms ∧
      l = (2 * g, i) :: (ms ++ [(2 * g + 1, i + w.length)]) := by
  constructor
  · intro h
    cases h with
    | group _ h => exact ⟨_, h, rfl⟩
  · rintro ⟨ms, h, rfl⟩
    exact .group g h

theorem spells_seq {r s : Regex} {i : Nat}
    {b a : Option Char} {w : List Char} {l : Marks} :
    Spells (.seq r s) i b w a l ↔
    ∃ u v ms ns, Spells r i b u (v.head?.or a) ms ∧
      Spells s (i + u.length) (u.getLast?.or b) v a ns ∧ w = u ++ v ∧
      l = ms ++ ns := by
  constructor
  · intro h
    cases h with
    | seq h h' => exact ⟨_, _, _, _, h, h', rfl, rfl⟩
  · rintro ⟨u, v, ms, ns, h, h', rfl, rfl⟩
    exact .seq h h'

theorem spells_alt {r s : Regex} {i : Nat}
    {b a : Option Char} {w : List Char} {ms : Marks} :
    Spells (.alt r s) i b w a ms ↔
    Spells r i b w a ms ∨ Spells s i b w a ms := by
  constructor
  · intro h
    cases h with
    | altLeft h => exact .inl h
    | altRight h => exact .inr h
  · rintro (h | h)
    · exact .altLeft h
    · exact .altRight h

theorem spells_plus {r : Regex} {greedy : Bool} {i : Nat} {b a : Option Char}
    {w : List Char} {l : Marks} : Spells (.plus greedy r) i b w a l ↔
    Spells (.seq r (.star greedy r)) i b w a l := by
  constructor
  · intro h
    cases h with
    | plus h h' => exact .seq h h'
  · intro h
    cases h with
    | seq h h' => exact .plus h h'

theorem spells_star {r : Regex} {greedy : Bool} {i : Nat} {b a : Option Char}
    {w : List Char} {l : Marks} : Spells (.star greedy r) i b w a l ↔
      (w = [] ∧ l = []) ∨ Spells (.seq r (.star greedy r)) i b w a l := by
  constructor
  · intro h
    cases h with
    | stop => exact .inl ⟨rfl, rfl⟩
    | round h h' => exact .inr (.seq h h')
  · rintro (⟨rfl, rfl⟩ | h)
    · exact .stop
    · cases h with
      | seq h h' => exact .round h h'

theorem Same.seq {r r' s s' : Regex} (h : Same r r') (h' : Same s s') :
    Same (.seq r s) (.seq r' s') := by
  intro i b w a l
  rw [spells_seq, spells_seq]
  constructor
  · rintro ⟨u, v, ms, ns, hr, hs, hw, hl⟩
    exact ⟨u, v, ms, ns, (h _ _ _ _ _).mp hr, (h' _ _ _ _ _).mp hs, hw, hl⟩
  · rintro ⟨u, v, ms, ns, hr, hs, hw, hl⟩
    exact ⟨u, v, ms, ns, (h _ _ _ _ _).mpr hr, (h' _ _ _ _ _).mpr hs, hw, hl⟩

theorem Same.alt {r r' s s' : Regex} (h : Same r r') (h' : Same s s') :
    Same (.alt r s) (.alt r' s') := by
  intro i b w a ms
  rw [spells_alt, spells_alt, h, h']

theorem Same.group {r r' : Regex} (h : Same r r') (g : Nat) :
    Same (.group g r) (.group g r') := by
  intro i b w a l
  rw [spells_group, spells_group]
  simp only [h _ _ _ _ _]

theorem Same.star {r r' : Regex} (h : Same r r') (greedy : Bool) :
    Same (.star greedy r) (.star greedy r') := by
  have hone : ∀ {r r' : Regex}, Same r r' →
      ∀ {x : Regex} {i b w a ms}, Spells x i b w a ms →
      x = .star greedy r → Spells (.star greedy r') i b w a ms := by
    intro r r' h x i b w a ms hx
    induction hx with
    | stop => exact fun _ => .stop
    | round hr _ _ ih =>
        intro heq
        cases heq
        exact .round ((h _ _ _ _ _).mp hr) (ih rfl)
    | _ => exact fun heq => by cases heq
  intro i b w a ms
  exact ⟨fun hx => hone h hx rfl, fun hx => hone h.symm hx rfl⟩

theorem Same.plus {r r' : Regex} (h : Same r r') (greedy : Bool) :
    Same (.plus greedy r) (.plus greedy r') := by
  intro i b w a ms
  rw [spells_plus, spells_plus]
  exact h.seq (h.star greedy) i b w a ms

theorem same_empty_seq (r : Regex) : Same (.seq .empty r) r := by
  intro i b w a l
  rw [spells_seq]
  constructor
  · rintro ⟨u, v, ms, ns, h, h', rfl, rfl⟩
    obtain ⟨rfl, rfl⟩ := spells_empty.mp h
    exact h'
  · intro h
    exact ⟨[], w, [], l, .empty, h, rfl, rfl⟩

theorem same_seq_empty (r : Regex) : Same (.seq r .empty) r := by
  intro i b w a l
  rw [spells_seq]
  constructor
  · rintro ⟨u, v, ms, ns, h, h', rfl, rfl⟩
    obtain ⟨rfl, rfl⟩ := spells_empty.mp h'
    rw [List.append_nil, List.append_nil]
    exact h
  · intro h
    exact ⟨w, [], l, [], h, .empty, (List.append_nil w).symm,
      (List.append_nil l).symm⟩

theorem same_seq_assoc (r s t : Regex) :
    Same (.seq (.seq r s) t) (.seq r (.seq s t)) := by
  have hhead : ∀ (u v : List Char) (a : Option Char),
      u.head?.or (v.head?.or a) = (u ++ v).head?.or a := by
    intro u v a
    cases u <;> rfl
  have hlast : ∀ (u v : List Char) (b : Option Char),
      v.getLast?.or (u.getLast?.or b) = (u ++ v).getLast?.or b := by
    intro u v b
    rw [List.getLast?_append, Option.or_assoc]
  intro i b w a l
  simp only [spells_seq]
  constructor
  · rintro ⟨x, z, ms, ls, ⟨u, v, ms, ns, hr, hs, rfl, rfl⟩, ht, rfl, rfl⟩
    refine ⟨u, v ++ z, ms, ns ++ ls, ?_, ⟨v, z, ns, ls, hs, ?_, rfl, rfl⟩,
      List.append_assoc _ _ _, List.append_assoc _ _ _⟩
    · rw [← hhead]
      exact hr
    · rw [hlast, Nat.add_assoc, ← List.length_append]
      exact ht
  · rintro ⟨u, x, ms, ls, hr, ⟨v, z, ns, ls, hs, ht, rfl, rfl⟩, rfl, rfl⟩
    refine ⟨u ++ v, z, ms ++ ns, ls, ⟨u, v, ms, ns, ?_, hs, rfl, rfl⟩, ?_,
      (List.append_assoc _ _ _).symm, (List.append_assoc _ _ _).symm⟩
    · rw [hhead]
      exact hr
    · rw [← hlast, List.length_append, ← Nat.add_assoc]
      exact ht

theorem CharSet.has_single {c d : Char} :
    (CharSet.single c).has d = true ↔ d = c := by
  simp only [has, single, Text.Ranges.has, Bool.or_false, Bool.and_eq_true,
    decide_eq_true_eq]
  constructor
  · intro h
    exact Char.toNat_inj.mp (by omega)
  · rintro rfl
    omega

/-- Some expressions, one after the other. -/
def Regex.chain : List Regex → Regex
  | [] => .empty
  | r :: rs => .seq r (chain rs)

open Regex (chain)

theorem same_chain_append (rs ss : List Regex) :
    Same (chain (rs ++ ss)) (.seq (chain rs) (chain ss)) := by
  induction rs with
  | nil => exact (same_empty_seq _).symm
  | cons r rs ih =>
      exact ((Same.refl r).seq ih).trans (same_seq_assoc _ _ _).symm

theorem same_chain_singleton (r : Regex) :
    Same (chain [r]) r := same_seq_empty r

theorem same_text_append (cs ds : List Char) :
    Same (.text (cs ++ ds)) (.seq (.text cs) (.text ds)) := by
  induction cs with
  | nil => exact (same_empty_seq _).symm
  | cons c cs ih =>
      exact ((Same.refl _).seq ih).trans (same_seq_assoc _ _ _).symm

theorem spells_text {cs : List Char} {i : Nat}
    {b a : Option Char} {w : List Char} {ms : Marks} :
    Spells (.text cs) i b w a ms ↔ w = cs ∧ ms = [] := by
  induction cs generalizing i b w ms with
  | nil => exact spells_empty
  | cons c cs ih =>
      rw [Regex.text, spells_seq]
      simp only [spells_one, ih]
      constructor
      · rintro ⟨u, v, ms, ns, ⟨d, hd, rfl, rfl⟩, ⟨rfl, rfl⟩, rfl, rfl⟩
        rw [CharSet.has_single.mp hd]
        exact ⟨rfl, rfl⟩
      · rintro ⟨rfl, rfl⟩
        exact ⟨[c], cs, [], [], ⟨c, CharSet.has_single.mpr rfl, rfl, rfl⟩,
          ⟨rfl, rfl⟩, rfl, rfl⟩

theorem spells_run {s : CharSet} {greedy : Bool} {i : Nat}
    {b a : Option Char} {w : List Char} {ms : Marks} :
    Spells (.star greedy (.one s)) i b w a ms ↔
    (∀ c ∈ w, s.has c = true) ∧ ms = [] := by
  induction w generalizing i b ms with
  | nil =>
      rw [spells_star, spells_seq]
      constructor
      · rintro (⟨-, rfl⟩ | ⟨u, v, ms, ns, h, -, heq, -⟩)
        · exact ⟨fun c hc => absurd hc List.not_mem_nil, rfl⟩
        · obtain ⟨c, -, rfl, -⟩ := spells_one.mp h
          cases heq
      · rintro ⟨-, rfl⟩
        exact .inl ⟨rfl, rfl⟩
  | cons c w ih =>
      rw [spells_star, spells_seq]
      constructor
      · rintro (⟨heq, -⟩ | ⟨u, v, ms, ns, h, h', heq, rfl⟩)
        · cases heq
        · obtain ⟨d, hd, rfl, rfl⟩ := spells_one.mp h
          obtain ⟨rfl, rfl⟩ := List.cons.inj heq
          obtain ⟨hw, rfl⟩ := ih.mp h'
          refine ⟨fun x hx => ?_, rfl⟩
          rcases List.mem_cons.mp hx with rfl | hx
          · exact hd
          · exact hw x hx
      · rintro ⟨hall, rfl⟩
        have hw : ∀ x ∈ w, s.has x = true :=
          fun x hx => hall x (List.mem_cons_of_mem _ hx)
        exact .inr ⟨[c], w, [], [], .one (hall c List.mem_cons_self),
          ih.mpr ⟨hw, rfl⟩, rfl, rfl⟩

section

variable {text : Array Char} {r : Regex} {i j : Nat} {l : Marks}

theorem takes_empty :
    Takes text .empty i j l ↔ i = j ∧ j ≤ text.size ∧ l = [] := by
  constructor
  · rintro ⟨hle, hsize, h⟩
    obtain ⟨hw, rfl⟩ := spells_empty.mp h
    have hlen := length_slice hle hsize
    rw [hw, List.length_nil] at hlen
    exact ⟨by omega, hsize, rfl⟩
  · rintro ⟨rfl, hsize, rfl⟩
    exact ⟨Nat.le_refl i, hsize, by rw [slice_self]; exact .empty⟩

theorem takes_text {cs : List Char} : Takes text (.text cs) i j l ↔
    i ≤ j ∧ j ≤ text.size ∧ slice text i j = cs ∧ l = [] := by
  constructor
  · rintro ⟨hle, hsize, h⟩
    exact ⟨hle, hsize, spells_text.mp h⟩
  · rintro ⟨hle, hsize, h⟩
    exact ⟨hle, hsize, spells_text.mpr h⟩

theorem takes_look {x : Anchor} : Takes text (.look x) i j l ↔
    i = j ∧ j ≤ text.size ∧
    x.holds (before? text i) text[j]? = true ∧ l = [] := by
  constructor
  · rintro ⟨hle, hsize, h⟩
    obtain ⟨hx, hw, rfl⟩ := spells_look.mp h
    have hlen := length_slice hle hsize
    rw [hw, List.length_nil] at hlen
    exact ⟨by omega, hsize, hx, rfl⟩
  · rintro ⟨rfl, hsize, hx, rfl⟩
    exact ⟨Nat.le_refl i, hsize, by rw [slice_self]; exact .look hx⟩

theorem takes_group {g : Nat} : Takes text (.group g r) i j l ↔
    ∃ ms, Takes text r i j ms ∧ l = (2 * g, i) :: (ms ++ [(2 * g + 1, j)]) := by
  constructor
  · rintro ⟨hle, hsize, h⟩
    obtain ⟨ms, hr, rfl⟩ := spells_group.mp h
    rw [length_slice hle hsize, Nat.add_sub_cancel' hle]
    exact ⟨ms, ⟨hle, hsize, hr⟩, rfl⟩
  · rintro ⟨ms, ⟨hle, hsize, h⟩, rfl⟩
    refine ⟨hle, hsize, spells_group.mpr ⟨ms, h, ?_⟩⟩
    rw [length_slice hle hsize, Nat.add_sub_cancel' hle]

end

/-- A pattern can match what an expression spells that is the same as its
own. -/
theorem canMatch_of_same {p : Pattern} {r s : Regex}
    (he : p.engine = .ofRegex (.group 0 r))
    (hs : Same r s) {text : Array Char} {i j : Nat} :
    p.CanMatch text i j ↔ ∃ ms, Takes text s i j ms := by
  have hplan : p.engine.plan.regex = .group 0 r := by
    rw [he]
    exact Plan.regex_ofRegex 0 (.group 0 r)
  rw [canMatch_iff_takes, hplan]
  constructor
  · rintro ⟨_, h⟩
    obtain ⟨ms, h, -⟩ := takes_group.mp h
    exact ⟨ms, h.same hs⟩
  · rintro ⟨ms, h⟩
    exact ⟨_, takes_group.mpr ⟨ms, h.same hs.symm, rfl⟩⟩

namespace Form

theorem same_ofParts (fs : List Form) :
    Same (ofParts fs).regex (chain (fs.map regex)) := by
  fun_induction ofParts fs with
  | case1 => exact Same.refl _
  | case2 f => exact (same_seq_empty _).symm
  | case3 f fs _ ih => exact (Same.refl _).seq ih

theorem same_parts (f : Form) : Same (chain (f.parts.map regex)) f.regex := by
  induction f with
  | empty => exact Same.refl _
  | seq f g _ ih => exact (Same.refl _).seq ih
  | text | set | look | group | alt | rep => exact same_seq_empty _

theorem same_join (f : Form) (fs : List Form) :
    Same (chain ((join f fs).map regex))
      (.seq f.regex (chain (fs.map regex))) := by
  fun_cases join f fs with
  | case1 a b gs =>
      exact ((same_text_append a b).seq (Same.refl _)).trans
        (same_seq_assoc _ _ _)
  | case2 => exact Same.refl _

/-- A sequence spells its members, one after the other. -/
theorem same_sequence (fs : List Form) :
    Same (sequence fs).regex (chain (fs.map regex)) := by
  have hjoin : ∀ fs : List Form,
      Same (chain ((fs.foldr join []).map regex)) (chain (fs.map regex)) := by
    intro fs
    induction fs with
    | nil => exact Same.refl _
    | cons f fs ih => exact (same_join _ _).trans ((Same.refl _).seq ih)
  have hparts :
      Same (chain ((fs.flatMap parts).map regex)) (chain (fs.map regex)) := by
    induction fs with
    | nil => exact Same.refl _
    | cons f fs ih =>
        rw [List.flatMap_cons, List.map_append]
        exact (same_chain_append _ _).trans ((same_parts f).seq ih)
  exact (same_ofParts _).trans ((hjoin _).trans hparts)

/-- Any number of something that takes characters. -/
theorem same_repeated_star {f : Form}
    (hf : f.onlyEmpty = false) (greedy : Bool) :
    Same (repeated 0 none greedy f).regex (.star greedy f.regex) := by
  have heq : (repeated 0 none greedy f).regex =
      .loop f.advances greedy f.regex := by
    rw [repeated, bounds, hf]
    rfl
  rw [heq, Regex.loop]
  split
  · exact Same.refl _
  · intro i b w a l
    have hopt : Spells (.opt greedy (.plus greedy f.regex)) i b w a l ↔
        (w = [] ∧ l = []) ∨ Spells (.plus greedy f.regex) i b w a l := by
      rw [Regex.opt]
      split
      · rw [spells_alt, spells_empty, or_comm]
      · rw [spells_alt, spells_empty]
    rw [hopt, spells_plus, spells_star]

/-- One or more of something that takes characters. -/
theorem same_repeated_plus {f : Form}
    (hf : f.onlyEmpty = false) (greedy : Bool) :
    Same (repeated 1 none greedy f).regex (.plus greedy f.regex) := by
  have heq : (repeated 1 none greedy f).regex =
      .seq .empty (.plus greedy f.regex) := by
    rw [repeated, bounds, hf]
    rfl
  rw [heq]
  exact same_empty_seq _

/-- Something or nothing. -/
theorem same_repeated_opt (f : Form) :
    Same (repeated 0 (some 1) true f).regex (.alt f.regex .empty) := by
  have heq : (repeated 0 (some 1) true f).regex =
      .seq .empty (.alt (.seq f.regex .empty) .empty) := by
    rw [repeated, bounds]
    cases f.onlyEmpty <;> rfl
  rw [heq]
  exact (same_empty_seq _).trans ((same_seq_empty _).alt (Same.refl _))

theorem ofSet_single (c : Char) : ofSet (.single c) = .text [c] := by
  rw [ofSet, CharSet.single, CharSet.single?]
  simp

end Form

end Codemod.Pattern
