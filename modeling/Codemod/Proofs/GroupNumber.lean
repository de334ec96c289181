import Codemod.Pattern.Reader
import Codemod.Proofs.Way

/-!
# The groups of a pattern are numbered from 1

Group 0 is the match as a whole and is put around the pattern when it is
compiled. What the reader makes of a text has groups of its own, and none of
them is group 0: a group takes the number of names given so far, and the first
name is there from the start. Putting forms together, sharing what branches
begin with and dropping what is repeated zero times never makes up a new group.

So the marks of group 0 are made once, at the two ends of a match.
-/

namespace Codemod.Pattern

namespace Form

/-- No group of the form is group 0. -/
def Numbers (f : Form) : Prop := ∀ g ∈ f.groups, 0 < g

theorem numbers_seq {f g : Form} :
    (seq f g).Numbers ↔ f.Numbers ∧ g.Numbers := by
  simp only [Numbers, groups, List.mem_append]
  exact ⟨fun h => ⟨fun x hx => h x (.inl hx), fun x hx => h x (.inr hx)⟩,
    fun h x hx => hx.elim (h.1 x) (h.2 x)⟩

theorem numbers_alt {f g : Form} :
    (alt f g).Numbers ↔ f.Numbers ∧ g.Numbers := numbers_seq

theorem Numbers.parts {f : Form} (h : f.Numbers) :
    ∀ p ∈ f.parts, p.Numbers := by
  induction f with
  | empty => exact fun p hp => absurd hp List.not_mem_nil
  | seq f g _ ih =>
      intro p hp
      rcases List.mem_cons.mp hp with rfl | hp
      · exact (numbers_seq.mp h).1
      · exact ih (numbers_seq.mp h).2 p hp
  | text | set | look | group | alt | rep =>
      intro p hp
      rw [List.mem_singleton.mp hp]
      exact h

theorem Numbers.branches {f : Form} (h : f.Numbers) :
    ∀ p ∈ f.branches, p.Numbers := by
  induction f with
  | alt f g _ ih =>
      intro p hp
      rcases List.mem_cons.mp hp with rfl | hp
      · exact (numbers_alt.mp h).1
      · exact ih (numbers_alt.mp h).2 p hp
  | empty | text | set | look | group | seq | rep =>
      intro p hp
      rw [List.mem_singleton.mp hp]
      exact h

theorem numbers_ofParts {fs : List Form} (h : ∀ f ∈ fs, f.Numbers) :
    (ofParts fs).Numbers := by
  fun_induction ofParts fs with
  | case1 => exact fun g hg => absurd hg List.not_mem_nil
  | case2 f => exact h f List.mem_cons_self
  | case3 f fs _ ih =>
      exact numbers_seq.mpr
        ⟨h f List.mem_cons_self, ih fun g hg => h g (List.mem_cons_of_mem _ hg)⟩

theorem numbers_ofBranches {fs : List Form} (h : ∀ f ∈ fs, f.Numbers) :
    (ofBranches fs).Numbers := by
  fun_induction ofBranches fs with
  | case1 => exact fun g hg => absurd hg List.not_mem_nil
  | case2 f => exact h f List.mem_cons_self
  | case3 f fs _ ih =>
      exact numbers_alt.mpr
        ⟨h f List.mem_cons_self, ih fun g hg => h g (List.mem_cons_of_mem _ hg)⟩

theorem numbers_join {f : Form} {fs : List Form}
    (h : f.Numbers) (hs : ∀ g ∈ fs, g.Numbers) :
    ∀ g ∈ join f fs, g.Numbers := by
  fun_cases join f fs with
  | case1 a b gs =>
      intro g hg
      rcases List.mem_cons.mp hg with rfl | hg
      · exact fun x hx => absurd hx List.not_mem_nil
      · exact hs g (List.mem_cons_of_mem _ hg)
  | case2 =>
      intro g hg
      rcases List.mem_cons.mp hg with rfl | hg
      · exact h
      · exact hs g hg

theorem numbers_foldr_join {fs : List Form} (h : ∀ f ∈ fs, f.Numbers) :
    ∀ g ∈ fs.foldr join [], g.Numbers := by
  induction fs with
  | nil => exact fun g hg => absurd hg List.not_mem_nil
  | cons f fs ih =>
      exact numbers_join (h f List.mem_cons_self)
        (ih fun g hg => h g (List.mem_cons_of_mem _ hg))

theorem numbers_sequence {fs : List Form} (h : ∀ f ∈ fs, f.Numbers) :
    (sequence fs).Numbers := by
  refine numbers_ofParts (numbers_foldr_join fun p hp => ?_)
  obtain ⟨f, hf, hp⟩ := List.mem_flatMap.mp hp
  exact (h f hf).parts p hp

theorem numbers_ofSet (s : CharSet) : (ofSet s).Numbers := by
  rw [ofSet]
  split <;> exact fun g hg => absurd hg List.not_mem_nil

theorem numbers_choice {fs : List Form} (h : ∀ f ∈ fs, f.Numbers) :
    (choice fs).Numbers := by
  have hb : ∀ f ∈ fs.flatMap branches, f.Numbers := by
    intro p hp
    obtain ⟨f, hf, hp⟩ := List.mem_flatMap.mp hp
    exact (h f hf).branches p hp
  simp only [choice]
  split
  · exact numbers_ofBranches hb
  · split
    · exact numbers_ofSet _
    · exact numbers_ofSet _
    · exact numbers_ofBranches hb

theorem numbers_common {fs gs : List Form} (h : ∀ f ∈ fs, f.Numbers) :
    ∀ f ∈ common fs gs, f.Numbers := by
  fun_induction common fs gs with
  | case1 f fs gs ih =>
      intro g hg
      rcases List.mem_cons.mp hg with rfl | hg
      · exact h _ List.mem_cons_self
      · exact ih (fun x hx => h x (List.mem_cons_of_mem _ hx)) g hg
  | case2 | case3 => exact fun g hg => absurd hg List.not_mem_nil

theorem numbers_shared {fs : List Form} (h : ∀ f ∈ fs, f.Numbers) :
    ∀ f ∈ shared fs, f.Numbers := by
  fun_cases shared fs with
  | case1 | case3 => exact fun g hg => absurd hg List.not_mem_nil
  | case2 f g fs =>
      have hfold : ∀ next : List Form → Form → List Form,
          (∀ acc h, (∀ f ∈ acc, f.Numbers) → ∀ x ∈ next acc h, x.Numbers) →
          ∀ (fs acc : List Form), (∀ f ∈ acc, f.Numbers) →
          ∀ x ∈ fs.foldl next acc, x.Numbers := by
        intro next hnext fs
        induction fs with
        | nil => exact fun acc hacc => hacc
        | cons a fs ih => exact fun acc hacc => ih _ (hnext acc a hacc)
      refine hfold _ (fun acc a hacc => ?_) fs _ (h _ List.mem_cons_self).parts
      cases a with
      | seq => exact numbers_common hacc
      | empty | text | set | look | group | alt | rep =>
          exact fun g hg => absurd hg List.not_mem_nil

theorem numbers_alternative {fs : List Form} (h : ∀ f ∈ fs, f.Numbers) :
    (alternative fs).Numbers := by
  have hb : ∀ f ∈ fs.flatMap branches, f.Numbers := by
    intro p hp
    obtain ⟨f, hf, hp⟩ := List.mem_flatMap.mp hp
    exact (h f hf).branches p hp
  have hc := numbers_choice hb
  simp only [alternative]
  split
  · next f g heq =>
      rw [heq] at hc
      split
      · exact hc
      · refine numbers_sequence fun p hp => ?_
        rcases List.mem_append.mp hp with hp | hp
        · exact numbers_shared hb p hp
        · rw [List.mem_singleton.mp hp]
          refine numbers_choice fun q hq => ?_
          obtain ⟨b, hbm, rfl⟩ := List.mem_map.mp hq
          exact numbers_ofParts fun x hx =>
            (hb b hbm).parts x (List.mem_of_mem_drop hx)
  · exact hc

theorem numbers_repeated {f : Form} (h : f.Numbers)
    (lo : Nat) (hi : Option Nat) (greedy : Bool) :
    (repeated lo hi greedy f).Numbers := by
  rw [repeated]
  split
  · exact fun g hg => absurd hg List.not_mem_nil
  · exact h
  · exact h

end Form

namespace Reader

theorem Item.numbers_form {x : Item} (h : x.body.Numbers) : x.form.Numbers := by
  rw [Item.form]
  split
  · exact Form.numbers_repeated h _ _ _
  · exact h

theorem numbers_sequence {xs : List Item} (h : ∀ x ∈ xs, x.body.Numbers) :
    (sequence xs).body.Numbers := by
  fun_cases sequence xs with
  | case1 => exact fun g hg => absurd hg List.not_mem_nil
  | case2 x => exact h x List.mem_cons_self
  | case3 =>
      refine Form.numbers_sequence fun f hf => ?_
      obtain ⟨x, hx, rfl⟩ := List.mem_map.mp hf
      exact Item.numbers_form (h x (List.mem_reverse.mp hx))

theorem numbers_alternative {xs : List Item} (h : ∀ x ∈ xs, x.body.Numbers) :
    (alternative xs).body.Numbers := by
  fun_cases alternative xs with
  | case1 => exact fun g hg => absurd hg List.not_mem_nil
  | case2 x => exact h x List.mem_cons_self
  | case3 =>
      refine Form.numbers_alternative fun f hf => ?_
      obtain ⟨x, hx, rfl⟩ := List.mem_map.mp hf
      exact Item.numbers_form (h x (List.mem_reverse.mp hx))

/-- Nothing that has been read holds group 0, and the next group will not be
group 0. -/
structure State.Numbers (st : State) : Prop where
  names : st.names ≠ []
  items : ∀ x ∈ st.items, x.body.Numbers
  branches : ∀ x ∈ st.branches, x.body.Numbers
  groups : ∀ g ∈ st.groups, g.capture ≠ some 0 ∧
    (∀ x ∈ g.items, x.body.Numbers) ∧ ∀ x ∈ g.branches, x.body.Numbers

namespace State.Numbers

variable {st : State} (h : st.Numbers)

include h

theorem enter (m : Mode) : (st.enter m).Numbers :=
  ⟨h.names, h.items, h.branches, h.groups⟩

theorem flags (f : Flags) : { st with flags := f : State }.Numbers :=
  ⟨h.names, h.items, h.branches, h.groups⟩

theorem push {x : Item} (hx : x.body.Numbers) : (st.push x).Numbers := by
  refine ⟨h.names, ?_, h.branches, h.groups⟩
  intro y hy
  rcases List.mem_cons.mp hy with rfl | hy
  · exact hx
  · exact h.items y hy

theorem pushSet (s : CharSet) : (st.pushSet s).Numbers :=
  h.push (Form.numbers_ofSet s)

theorem pushAnchor (a : Anchor) : (st.pushAnchor a).Numbers :=
  h.push fun _ hg => absurd hg List.not_mem_nil

theorem quantify {lo : Nat} {hi : Option Nat} {st' : State}
    (he : st.quantify lo hi = .ok st') :
    st'.Numbers := by
  rw [State.quantify] at he
  split at he
  · next x xs hitems =>
      split at he
      · cases he
        refine ⟨h.names, ?_, h.branches, h.groups⟩
        intro y hy
        rcases List.mem_cons.mp hy with rfl | hy
        · exact Item.numbers_form (h.items x (by rw [hitems]; simp))
        · exact h.items y (by rw [hitems]; exact List.mem_cons_of_mem _ hy)
      · cases he
  · cases he

theorem makeLazy : st.makeLazy.Numbers := by
  rw [State.makeLazy]
  split
  · next x xs hitems =>
      refine ⟨h.names, ?_, h.branches, h.groups⟩
      intro y hy
      rcases List.mem_cons.mp hy with rfl | hy
      · exact h.items x (by rw [hitems]; simp)
      · exact h.items y (by rw [hitems]; exact List.mem_cons_of_mem _ hy)
  · exact ⟨h.names, h.items, h.branches, h.groups⟩

theorem openGroup {capture : Option Nat} (hc : capture ≠ some 0) (f : Flags) :
    (st.openGroup capture f).Numbers := by
  refine ⟨h.names, fun x hx => absurd hx List.not_mem_nil,
    fun x hx => absurd hx List.not_mem_nil, ?_⟩
  intro g hg
  rcases List.mem_cons.mp hg with rfl | hg
  · exact ⟨hc, h.items, h.branches⟩
  · exact h.groups g hg

theorem openCapture (name : Option (List Char)) :
    (st.openCapture name).Numbers := by
  have hlen : (some st.names.length : Option Nat) ≠ some 0 := by
    intro heq
    exact h.names (List.length_eq_zero_iff.mp (Option.some.inj heq))
  have ho := h.openGroup hlen st.flags
  exact ⟨List.cons_ne_nil _ _, ho.items, ho.branches, ho.groups⟩

theorem content : st.content.body.Numbers := by
  refine numbers_alternative fun x hx => ?_
  rcases List.mem_cons.mp hx with rfl | hx
  · exact numbers_sequence h.items
  · exact h.branches x hx

theorem closeGroup {st' : State} (he : st.closeGroup = .ok st') :
    st'.Numbers := by
  rw [State.closeGroup] at he
  split at he
  · cases he
  · next g gs hgroups =>
      cases he
      obtain ⟨hcap, hitems, hbranches⟩ := h.groups g (by rw [hgroups]; simp)
      refine ⟨h.names, ?_, hbranches, ?_⟩
      · intro y hy
        rcases List.mem_cons.mp hy with rfl | hy
        · have hin := Item.numbers_form h.content
          cases hc : g.capture with
          | none => exact hin
          | some i =>
              intro x hx
              rcases List.mem_cons.mp hx with rfl | hx
              · rw [hc] at hcap
                exact Nat.pos_of_ne_zero fun hzero => hcap (by rw [hzero])
              · exact hin x hx
        · exact hitems y hy
      · exact fun g' hg' =>
          h.groups g' (by rw [hgroups]; exact List.mem_cons_of_mem _ hg')

theorem nextBranch : st.nextBranch.Numbers := by
  refine ⟨h.names, fun x hx => absurd hx List.not_mem_nil, ?_, h.groups⟩
  intro y hy
  rcases List.mem_cons.mp hy with rfl | hy
  · exact numbers_sequence h.items
  · exact h.branches y hy

theorem stepItems {c : Char} {st' : State}
    (he : Reader.stepItems st c = .ok st') :
    st'.Numbers := by
  rw [Reader.stepItems.eq_def] at he
  split at he
  · cases he; exact h.enter _
  · cases he; exact h.enter _
  · exact h.closeGroup he
  · cases he; exact h.nextBranch
  · cases he; exact h.enter _
  · exact h.quantify he
  · exact h.quantify he
  · split at he
    · cases he; exact h.makeLazy
    · exact h.quantify he
  · split at he
    · split at he
      · cases he; exact h.enter _
      · cases he
    · cases he
  · cases he; exact h.pushSet _
  · cases he; exact h.pushAnchor _
  · cases he; exact h.pushAnchor _
  · cases he; exact h.pushSet _

theorem enterClass {r : Except Fault OpenClass} {st' : State}
    (he : (r.map fun b => st.enter (.bracket b)) = .ok st') : st'.Numbers := by
  cases r with
  | error e => cases he
  | ok b =>
      cases he
      exact h.enter _

theorem classAtom {b : OpenClass} {a : Atom} {st' : State}
    (he : st.classAtom b a = .ok st') :
    st'.Numbers := by
  rw [State.classAtom] at he
  split at he
  · exact h.enterClass he
  · cases he
    exact h.enter _

theorem putEscaped {place : Place} {e : Escaped} {st' : State}
    (he : st.putEscaped place e = .ok st') : st'.Numbers := by
  rw [State.putEscaped.eq_def] at he
  split at he
  · cases he; exact h.pushSet _
  · cases he; exact h.pushSet _
  · cases he; exact h.pushAnchor _
  · exact h.classAtom he
  · exact h.classAtom he
  · cases he

theorem putCode {place : Place} {n : Nat} {st' : State}
    (he : st.putCode place n = .ok st') :
    st'.Numbers := by
  rw [State.putCode] at he
  split at he
  · exact h.putEscaped he
  · cases he

theorem stepEscape {place : Place} {c : Char} {st' : State}
    (he : Reader.stepEscape st place c = .ok st') : st'.Numbers := by
  rw [Reader.stepEscape.eq_def] at he
  split at he
  · cases he; exact h.enter _
  · cases he; exact h.enter _
  · cases he; exact h.enter _
  · split at he
    · exact h.putEscaped he
    · cases he

theorem stepHexFixed {left value : Nat} {place : Place} {c : Char} {st' : State}
    (he : Reader.stepHexFixed st left value place c = .ok st') :
    st'.Numbers := by
  rw [Reader.stepHexFixed] at he
  split at he
  · cases he
  · simp only at he
    split at he
    · exact h.putCode he
    · cases he; exact h.enter _

theorem stepHexBraced {digits value : Nat}
    {place : Place} {c : Char} {st' : State}
    (he : Reader.stepHexBraced st digits value place c = .ok st') :
    st'.Numbers := by
  rw [Reader.stepHexBraced] at he
  split at he
  · split at he
    · cases he
    · exact h.putCode he
  · split at he
    · cases he
    · cases he; exact h.enter _

theorem stepName {name : List Char} {c : Char} {st' : State}
    (he : Reader.stepName st name c = .ok st') : st'.Numbers := by
  rw [Reader.stepName] at he
  split at he
  · split at he
    · cases he
    · split at he
      · cases he
      · cases he; exact h.openCapture _
  · split at he
    · cases he; exact h.enter _
    · cases he

theorem stepFlags {given : List FlagItem} {c : Char} {st' : State}
    (he : Reader.stepFlags st given c = .ok st') : st'.Numbers := by
  rw [Reader.stepFlags.eq_def] at he
  split at he
  · simp only at he
    split at he
    · cases he
    · cases he; exact h.openGroup (by simp) _
  · simp only at he
    split at he
    · cases he
    · cases he; exact (h.flags _).push fun _ hg => absurd hg List.not_mem_nil
  · split at he
    · split at he
      · cases he
      · cases he; exact h.enter _
    · cases he

theorem counted {lo : Nat} {hi : Option Nat} {st' : State}
    (he : st.counted lo hi = .ok st') :
    st'.Numbers := by
  rw [State.counted] at he
  split at he
  · cases he
  · exact h.quantify he

theorem stepCount {k : Count} {c : Char} {st' : State}
    (he : Reader.stepCount st k c = .ok st') :
    st'.Numbers := by
  rw [Reader.stepCount.eq_def] at he
  simp only at he
  repeat' split at he
  all_goals first
    | exact h.counted he
    | (cases he; exact h.enter _)
    | cases he

theorem closeClass (b : OpenClass) :
    (st.closeClass b).Numbers := h.push (Form.numbers_ofSet _)

theorem stepBetween {b : OpenClass} {c : Char} {st' : State}
    (he : Reader.stepBetween st b c = .ok st') : st'.Numbers := by
  rw [Reader.stepBetween.eq_def] at he
  split at he
  · cases he; exact h.closeClass _
  · cases he
  · cases he; exact h.enter _
  · cases he; exact h.enter _

theorem stepLeading {b : OpenClass} {c : Char} {st' : State}
    (he : Reader.stepLeading st b c = .ok st') : st'.Numbers := by
  rw [Reader.stepLeading] at he
  split at he
  · cases he; exact h.enter _
  · split at he
    · cases he; exact h.enter _
    · exact h.stepBetween he

theorem stepBracket {b : OpenClass} {c : Char} {st' : State}
    (he : Reader.stepBracket st b c = .ok st') : st'.Numbers := by
  rw [Reader.stepBracket.eq_def] at he
  split at he
  · split at he
    · cases he; exact h.enter _
    · exact h.stepLeading he
  · exact h.stepLeading he
  · exact h.stepBetween he
  · simp only at he
    repeat' split at he
    all_goals first
      | exact h.stepBetween he
      | (cases he; exact h.enter _)
      | cases he
  · split at he
    · cases he; exact h.closeClass _
    · cases he
    · cases he; exact h.enter _
    · exact h.enterClass he

/-- Reading a character keeps it so. -/
theorem step {c : Char} {st' : State} (he : Reader.step st c = .ok st') :
    st'.Numbers := by
  rw [Reader.step.eq_def] at he
  split at he
  · exact h.stepItems he
  · exact h.stepEscape he
  · split at he
    · cases he; exact h.enter _
    · exact h.stepHexFixed he
  · exact h.stepHexFixed he
  · exact h.stepHexBraced he
  · split at he
    · cases he; exact h.enter _
    · exact (h.openCapture none).stepItems he
  · split at he
    · cases he; exact h.enter _
    · cases he; exact h.enter _
    · exact h.stepFlags he
  · split at he
    · cases he; exact h.enter _
    · cases he
  · exact h.stepName he
  · exact h.stepName he
  · exact h.stepFlags he
  · exact h.stepCount he
  · exact h.stepBracket he

/-- Reading a text keeps it so. -/
theorem foldlM {cs : List Char} {st' : State}
    (he : cs.foldlM Reader.step st = .ok st') :
    st'.Numbers := by
  induction cs generalizing st with
  | nil =>
      cases he
      exact h
  | cons c cs ih =>
      rw [List.foldlM_cons] at he
      cases hs : Reader.step st c with
      | error e => rw [hs] at he; cases he
      | ok st₁ =>
          rw [hs] at he
          exact ih (h.step hs) he

end State.Numbers

/-- What is read is what is parsed, unless it is too large. -/
theorem read_of_parse {flags : Flags} {source : List Char} {f : Form}
    {names : List (Option (List Char))}
    (h : parse flags source = .ok (f, names)) :
    read flags source = if f.fits then .ok (f, names)
      else .error .tooLarge := by
  rw [read, h]
  rfl

theorem parse_of_read {flags : Flags} {source : List Char} {f : Form}
    {names : List (Option (List Char))}
    (h : read flags source = .ok (f, names)) :
    parse flags source = .ok (f, names) := by
  cases hparse : parse flags source with
  | error e =>
      rw [read, hparse] at h
      cases h
  | ok x =>
      rw [read_of_parse hparse] at h
      split at h
      · exact h
      · cases h

/-- What is read from a text has no group 0. -/
theorem numbers_read {flags : Flags} {source : List Char} {f : Form}
    {names : List (Option (List Char))}
    (h : read flags source = .ok (f, names)) : f.Numbers := by
  replace h := parse_of_read h
  rw [parse] at h
  cases hs : source.foldlM step { flags } with
  | error e => rw [hs] at h; cases h
  | ok st =>
      rw [hs] at h
      have hinit : ({ flags } : State).Numbers :=
        ⟨List.cons_ne_nil _ _, fun x hx => absurd hx List.not_mem_nil,
          fun x hx => absurd hx List.not_mem_nil,
          fun g hg => absurd hg List.not_mem_nil⟩
      have hst := hinit.foldlM hs
      replace h : finish st = .ok (f, names) := h
      rw [finish.eq_def] at h
      split at h
      · simp only at h
        split at h
        · cases h
        · cases h
          exact Item.numbers_form hst.content
      · cases h
      · cases h

end Reader

/-! ## The marks of a way

A group marks its ends under twice its number and the number after that, so
without group 0 there are no marks below 2. -/

/-- No group of the expression is group 0. -/
def Regex.Numbers : Regex → Prop
  | .empty | .one _ | .look _ => True
  | .group i r => 0 < i ∧ r.Numbers
  | .seq r s | .alt r s => r.Numbers ∧ s.Numbers
  | .star _ r | .plus _ r => r.Numbers

theorem Regex.numbers_text : ∀ cs : List Char, (Regex.text cs).Numbers
  | [] => trivial
  | _ :: cs => ⟨trivial, numbers_text cs⟩

theorem Regex.Numbers.opt {r : Regex} (h : r.Numbers) (greedy : Bool) :
    (Regex.opt greedy r).Numbers := by
  cases greedy with
  | false => exact ⟨trivial, h⟩
  | true => exact ⟨h, trivial⟩

theorem Regex.Numbers.copies {r : Regex} (h : r.Numbers) :
    ∀ n, (r.copies n).Numbers
  | 0 => trivial
  | n + 1 => ⟨h, copies h n⟩

theorem Regex.Numbers.upTo {r : Regex} (h : r.Numbers) (greedy : Bool) :
    ∀ n, (Regex.upTo greedy r n).Numbers
  | 0 => trivial
  | n + 1 =>
      Regex.Numbers.opt (r := .seq r (Regex.upTo greedy r n))
        ⟨h, upTo h greedy n⟩ greedy

theorem Regex.Numbers.rep {r : Regex} (h : r.Numbers)
    (lo : Nat) (hi : Option Nat) (advances greedy : Bool) :
    (Regex.rep lo hi advances greedy r).Numbers := by
  rw [Regex.rep.eq_def]
  split
  · exact ⟨h.copies _, h.upTo _ _⟩
  · rw [Regex.loop]
    split
    · exact h
    · exact Regex.Numbers.opt (r := .plus greedy r) h greedy
  · exact ⟨h.copies _, h⟩

theorem Form.Numbers.regex {f : Form} (h : f.Numbers) : f.regex.Numbers := by
  induction f with
  | empty | set | look => trivial
  | text cs => exact Regex.numbers_text cs
  | group i f ih =>
      exact ⟨h i List.mem_cons_self,
        ih fun g hg => h g (List.mem_cons_of_mem _ hg)⟩
  | seq f g ihf ihg =>
      exact ⟨ihf (numbers_seq.mp h).1, ihg (numbers_seq.mp h).2⟩
  | alt f g ihf ihg =>
      exact ⟨ihf (numbers_alt.mp h).1, ihg (numbers_alt.mp h).2⟩
  | rep lo hi greedy f ih => exact (ih h).rep _ _ _ _

theorem Way.two_le_mark {text : Array Char} {p : Plan} {i j : Nat} {t : Trail}
    (h : Way text p i j t) (hp : p.regex.Numbers) : ∀ x ∈ t.marks, 2 ≤ x.1 := by
  induction h with
  | empty | one | look | stop => exact fun x hx => absurd hx List.not_mem_nil
  | group n g _ ih =>
      have hg : 0 < g := hp.1
      intro x hx
      simp only [Trail.marks_append, Trail.mark, List.mem_append,
        List.mem_singleton] at hx
      rcases hx with (rfl | hx) | rfl
      · show 2 ≤ 2 * g
        omega
      · exact ih hp.2 x hx
      · show 2 ≤ 2 * g + 1
        omega
  | altLeft n _ ih => exact fun x hx => ih hp.1 x hx
  | altRight n _ ih => exact fun x hx => ih hp.2 x hx
  | seq n _ _ ih ih' =>
      intro x hx
      rcases List.mem_append.mp hx with hx | hx
      · exact ih hp.1 x hx
      · exact ih' hp.2 x hx
  | round _ _ ih ih' | plus _ _ ih ih' =>
      intro x hx
      rcases List.mem_append.mp hx with hx | hx
      · exact ih hp x hx
      · exact ih' hp x hx

end Codemod.Pattern
