import Codemod.Proofs.GrammarSteps
import Mathlib.Data.List.Nodup

/-!
# What is parsed is what the grammar says

The reader takes one character at a time, so it is always somewhere inside of a
pattern. `Holds` says what it knows then: the text so far is a text of the
grammar (`Frame`), and behind it stands the beginning of a longer form
(`Partial`), which is empty between members. Every step keeps this, and at the
end it is the grammar.

The last repetition stays open for one character more, since a question mark
would make it lazy; `Behind` keeps what it repeats.
-/

namespace Codemod.Pattern.Grammar

open Reader (Escaped Atom FlagItem Item OpenGroup OpenClass Place Mode State
  escape? isName isNameChar changeFlags flagItem? maxCount)

/-! ## What the state holds -/

/-- The forms of items that stand last first. -/
def forms (xs : List Item) : List Form :=
  (xs.map Item.form).reverse

/-- The last item can be repeated if it is not nothing. -/
def Ends (xs : List Item) (e : Ending) : Prop :=
  xs.head?.any (·.repeatable) = true ↔ e ≠ .nothing

/-- The text of the group that is open, with its finished branches and its
members. -/
inductive Behind (s : Context) : List Char → List Item → List Item → Context →
    Ending → Prop where
  | settled {cs : List Char} {gs fs : List Item} {t : Context} {e : Ending}
      (h : Parts s cs (forms gs) (forms fs) t e) (hends : Ends fs e)
      (he : e ≠ .repetition) : Behind s cs gs fs t e
  | repeated {cs ds : List Char} {gs fs : List Item} {t : Context} {e : Ending}
      {f : Form} {lo : Nat} {hi : Option Nat} {depth : Nat}
      (h : Parts s cs (forms gs) (forms fs ++ [f]) t e) (he : e ≠ .nothing)
      (hq : Quantifier ds lo hi) (hlazy : e = .repetition → ds ≠ ['?']) :
      Behind s (cs ++ ds) gs
        ({ body := f, rounds := some ⟨lo, hi, true⟩, depth } :: fs) t
        .repetition

/-- The groups that are open, with the text up to the inside of the innermost
one. -/
inductive Opened (f : Flags) : List OpenGroup → Context → List Char → Prop where
  | whole : Opened f [] ⟨f, [none]⟩ []
  | group {gs : List OpenGroup} {g : OpenGroup} {s t u : Context}
      {cs ds hs : List Char} {e : Ending} (h : Opened f gs s cs)
      (hb : Behind s ds g.branches g.items t e) (hflags : g.flags = t.flags)
      (hhead : Head t hs g.capture u) : Opened f (g :: gs) u (cs ++ ds ++ hs)

/-- The text is what the state was read from. -/
def Frame (f : Flags) (st : State) (cs : List Char) (e : Ending) : Prop :=
  ∃ s t ds es, Opened f st.groups s ds ∧
    Behind s es st.branches st.items t e ∧
    t = ⟨st.flags, st.names.reverse⟩ ∧ cs = ds ++ es

/-- A name of a group, so far. -/
def NameText (cs : List Char) : Prop :=
  cs = [] ∨ isName cs = true

/-- The beginning of a longer form. -/
inductive Partial : Mode → List Char → Prop where
  | items : Partial .items []
  | escape {place : Place} {cs : List Char} (h : EscapeText place cs) :
      Partial (.escape place) (cs ++ ['\\'])
  | hexStart {place : Place} {cs : List Char} {c : Char} {width : Nat}
      (h : EscapeText place cs) (hc : hexWidth? c = some width) :
      Partial (.hexStart width place) (cs ++ ['\\', c])
  | hexFixed {place : Place} {cs ds : List Char} {c : Char} {left value : Nat}
      (h : EscapeText place cs) (hc : hexWidth? c = some (ds.length + left))
      (hleft : left ≠ 0) (hn : number? 16 Text.hexValue? ds = some value) :
      Partial (.hexFixed left value place) (cs ++ '\\' :: c :: ds)
  | hexBraced {place : Place} {cs ds : List Char} {c : Char} {value : Nat}
      (h : EscapeText place cs) (hc : (hexWidth? c).isSome = true)
      (hn : number? 16 Text.hexValue? ds = some value) :
      Partial (.hexBraced ds.length value place)
        (cs ++ '\\' :: c :: '\x7b' :: ds)
  | groupStart : Partial .groupStart ['(']
  | groupQuestion : Partial .groupQuestion "(?".toList
  | groupNamed : Partial .groupNamed "(?P".toList
  | groupAngle : Partial .groupAngle "(?<".toList
  | groupName {lead name : List Char}
      (hlead : lead ∈ ["(?P<".toList, "(?<".toList])
      (h : NameText name.reverse) :
      Partial (.groupName name) (lead ++ name.reverse)
  | groupFlags {ds : List Char} {given : List FlagItem}
      (hwritten : ds.mapM flagItem? = some given.reverse)
      (hnodup : given.Nodup) :
      Partial (.groupFlags given) ("(?".toList ++ ds)
  | count {k : Reader.Count} {ds : List Char} (h : CountText ds k) :
      Partial (.count k) ('\x7b' :: ds)
  | bracket {b : OpenClass} {ds : List Char} (h : OpenText ds b) :
      Partial (.bracket b) ('[' :: ds)

/-- What is known of a text that has been read: up to the beginning of a longer
form, it is a text of the grammar. -/
def Holds (f : Flags) (st : State) (cs : List Char) : Prop :=
  ∃ front back e, cs = front ++ back ∧ Frame f st front e ∧
    Partial st.mode back ∧
    (st.mode = .items → (st.lazyable = true ↔ e = .repetition))

/-! ## The forms of items -/

theorem length_forms (xs : List Item) : (forms xs).length = xs.length := by
  rw [forms, List.length_reverse, List.length_map]

theorem sequenceForm_of_length {fs : List Form} (h : 2 ≤ fs.length) :
    sequenceForm fs = .sequence fs := by
  match fs with
  | _ :: _ :: _ => rfl

theorem choiceForm_of_length {fs : List Form} (h : 2 ≤ fs.length) :
    choiceForm fs = .alternative fs := by
  match fs with
  | _ :: _ :: _ => rfl

theorem sequence_form (xs : List Item) :
    (Reader.sequence xs).form = sequenceForm (forms xs) := by
  match xs with
  | [] | [_] => rfl
  | x :: y :: zs =>
      rw [sequenceForm_of_length (by simp [length_forms]), forms,
        ← List.map_reverse]
      rfl

theorem alternative_form (xs : List Item) :
    (Reader.alternative xs).form = choiceForm (forms xs) := by
  match xs with
  | [] | [_] => rfl
  | x :: y :: zs =>
      rw [choiceForm_of_length (by simp [length_forms]), forms,
        ← List.map_reverse]
      rfl

theorem forms_cons (x : Item) (xs : List Item) :
    forms (x :: xs) = forms xs ++ [x.form] := by
  rw [forms, List.map_cons, List.reverse_cons]
  rfl

theorem content_form (st : State) : st.content.form =
    choiceForm (forms st.branches ++ [sequenceForm (forms st.items)]) := by
  rw [State.content, alternative_form, forms_cons, sequence_form]

/-! ## What a change of the state is in the text -/

section

variable {f : Flags} {st st' : State} {cs ds : List Char} {e : Ending}

theorem Behind.parts {s t : Context} {gs fs : List Item}
    (h : Behind s cs gs fs t e) :
    Parts s cs (forms gs) (forms fs) t e ∧ Ends fs e := by
  cases h with
  | settled h hends he => exact ⟨h, hends⟩
  | repeated h he hq hlazy =>
      rw [forms_cons]
      exact ⟨.repeated h he hq hlazy, by simp [Ends]⟩

theorem Frame.push (h : Frame f st cs e) {g : Form}
    (hg : Single st.flags ds g) (depth : Nat) :
    Frame f (st.push { body := g, depth }) (cs ++ ds) .member := by
  obtain ⟨s, t, front, es, hopened, hb, rfl, rfl⟩ := h
  refine ⟨s, _, front, es ++ ds, hopened, .settled ?_
    (by simp [Ends, State.push]) (by simp), rfl, List.append_assoc _ _ _⟩
  have hparts := hb.parts.1.single hg
  rwa [State.push, forms_cons]

theorem Frame.quantify (h : Frame f st cs e) {lo : Nat} {hi : Option Nat}
    (hq : Quantifier ds lo hi) (hlazy : e = .repetition → ds ≠ ['?'])
    (hs : st.quantify lo hi = .ok st') :
    Frame f st' (cs ++ ds) .repetition ∧ st'.mode = .items ∧
      st'.lazyable = true := by
  obtain ⟨s, t, front, es, hopened, hb, rfl, rfl⟩ := h
  obtain ⟨hparts, hends⟩ := hb.parts
  rw [State.quantify] at hs
  split at hs
  · next x xs hitems =>
      split at hs
      · next hx =>
          cases hs
          rw [hitems] at hends
          rw [hitems, forms_cons] at hparts
          exact ⟨⟨s, _, front, es ++ ds, hopened,
            .repeated hparts (hends.mp (by simpa using hx)) hq hlazy, rfl,
            List.append_assoc _ _ _⟩, rfl, rfl⟩
      · cases hs
  · cases hs

theorem Frame.makeLazy (h : Frame f st cs .repetition) :
    Frame f st.makeLazy (cs ++ ['?']) .member ∧
      st.makeLazy.mode = st.mode ∧ st.makeLazy.lazyable = false := by
  obtain ⟨mode, groups, branches, items, flags, names, lazyable⟩ := st
  obtain ⟨s, t, front, es, hopened, hb, rfl, rfl⟩ := h
  cases hb with
  | settled h hends he => exact absurd rfl he
  | repeated h he hq hlazy =>
      refine ⟨⟨s, _, front, _, hopened,
        .settled ?_ (by simp [Ends, State.makeLazy]) (by simp), rfl,
        List.append_assoc _ _ _⟩, rfl, rfl⟩
      have hparts := Parts.lazily h he hq hlazy
      rwa [State.makeLazy, forms_cons]

theorem Frame.nextBranch (h : Frame f st cs e) :
    Frame f st.nextBranch (cs ++ ['|']) .nothing := by
  obtain ⟨s, t, front, es, hopened, hb, rfl, rfl⟩ := h
  refine ⟨s, _, front, es ++ ['|'], hopened,
    .settled ?_ (by simp [Ends, State.nextBranch]) (by simp), rfl,
    List.append_assoc _ _ _⟩
  have hparts := hb.parts.1.bar
  rwa [State.nextBranch, forms_cons, sequence_form]

theorem Frame.open (h : Frame f st cs e) {u : Context} {capture : Option Nat}
    (hhead : Head ⟨st.flags, st.names.reverse⟩ ds capture u) :
    Frame f { st.openGroup capture u.flags with names := u.names.reverse }
      (cs ++ ds) .nothing := by
  obtain ⟨s, t, front, es, hopened, hb, rfl, rfl⟩ := h
  refine ⟨u, u, front ++ es ++ ds, [], .group hopened hb rfl hhead,
    .settled (.start u) (by simp [Ends, State.openGroup]) (by simp), ?_,
    (List.append_nil _).symm⟩
  rw [List.reverse_reverse]
  rfl

theorem Frame.openCapture (h : Frame f st cs e) :
    Frame f (st.openCapture none) (cs ++ ['(']) .nothing := by
  have hopen := h.open .capture
  simpa [State.openCapture] using hopen

theorem Frame.openNamed (h : Frame f st cs e) {lead name : List Char}
    (hlead : lead ∈ ["(?P<".toList, "(?<".toList]) (hname : isName name = true)
    (hfresh : some name ∉ st.names) :
    Frame f (st.openCapture (some name)) (cs ++ (lead ++ name ++ ['>']))
      .nothing := by
  have hopen := h.open (.named hlead hname (by simpa using hfresh))
  simpa [State.openCapture] using hopen

theorem Frame.openPlain (h : Frame f st cs e) {given : List FlagItem}
    (hds : Switches ds given.reverse) :
    Frame f (st.openGroup none (changeFlags st.flags given))
      (cs ++ ("(?".toList ++ ds ++ [':'])) .nothing := by
  have hopen := h.open (.plain hds)
  simpa [State.openGroup] using hopen

theorem Frame.switch (h : Frame f st cs e) {given : List FlagItem}
    (hds : Switches ds given.reverse) (hne : given ≠ []) :
    Frame f ({ st with flags := changeFlags st.flags given }.push
      { body := .empty, repeatable := false })
      (cs ++ ("(?".toList ++ ds ++ [')'])) .nothing := by
  obtain ⟨s, t, front, es, hopened, hb, rfl, rfl⟩ := h
  refine ⟨s, _, front, es ++ ("(?".toList ++ ds ++ [')']), hopened,
    .settled ?_ (by simp [Ends, State.push]) (by simp), rfl,
    List.append_assoc _ _ _⟩
  have hparts := hb.parts.1.switches hds (by simpa using hne)
  rw [List.reverse_reverse] at hparts
  rw [State.push, forms_cons]
  simpa only [List.append_assoc, Item.form] using hparts

theorem Frame.close (h : Frame f st cs e) (hs : st.closeGroup = .ok st') :
    Frame f st' (cs ++ [')']) .member ∧ st'.mode = .items ∧
      st'.lazyable = false := by
  obtain ⟨s, t, front, es, hopened, hb, rfl, rfl⟩ := h
  rw [State.closeGroup] at hs
  split at hs
  · cases hs
  · next g gs hgroups =>
      cases hs
      rw [hgroups] at hopened
      cases hopened with
      | @group _ _ s' t' _ cs ds hs _ hopened hb' hflags hhead =>
          refine ⟨⟨s', _, cs, ds ++ hs ++ es ++ [')'], hopened,
            .settled ?_ (by simp [Ends]) (by simp), rfl, by simp⟩, rfl, rfl⟩
          have hparts := hb'.parts.1.group hhead hb.parts.1
          rw [forms_cons, hflags]
          simp only [content_form]
          cases hcapture : g.capture <;>
            simpa [hcapture, Item.form, groupForm] using hparts

end

/-! ## What a step does -/

section

variable {f : Flags} {st st' : State} {cs ds : List Char} {e : Ending}

theorem Frame.holds (h : Frame f st cs e) (hmode : st.mode = .items)
    (hlazy : st.lazyable = true ↔ e = .repetition) : Holds f st cs := by
  refine ⟨cs, [], e, (List.append_nil cs).symm, h, ?_, fun _ => hlazy⟩
  rw [hmode]
  exact .items

/-- A longer form begins, or goes on. -/
theorem Frame.enter (h : Frame f st cs e) {m : Mode} (hm : m ≠ .items)
    (hback : Partial m ds) : Holds f (st.enter m) (cs ++ ds) :=
  ⟨cs, ds, e, rfl, h, hback, fun heq => absurd heq hm⟩

theorem Frame.push_holds (h : Frame f st cs e) {g : Form}
    (hg : Single st.flags ds g) (depth : Nat) :
    Holds f (st.push { body := g, depth }) (cs ++ ds) :=
  (h.push hg depth).holds rfl (by simp [State.push])

theorem stepItems_sound (h : Frame f st cs e) (hmode : st.mode = .items)
    (hlazy : st.lazyable = true ↔ e = .repetition) {c : Char}
    (hs : Reader.stepItems st c = .ok st') : Holds f st' (cs ++ [c]) := by
  have hquantify : ∀ {lo : Nat} {hi : Option Nat}, Quantifier [c] lo hi →
      (e = .repetition → [c] ≠ ['?']) → st.quantify lo hi = .ok st' →
      Holds f st' (cs ++ [c]) := by
    intro lo hi hq hlazy hs
    obtain ⟨h', hmode, hlazy'⟩ := h.quantify hq hlazy hs
    exact h'.holds hmode (by simp [hlazy'])
  rw [Reader.stepItems.eq_def] at hs
  split at hs
  · cases hs
    exact h.enter (by simp) (.escape .items)
  · cases hs
    exact h.enter (by simp) .groupStart
  · obtain ⟨h', hmode, hlazy'⟩ := h.close hs
    exact h'.holds hmode (by simp [hlazy'])
  · cases hs
    exact h.nextBranch.holds hmode (by simp [State.nextBranch])
  · cases hs
    exact h.enter (by simp) (.bracket .opened)
  · exact hquantify .star (by simp) hs
  · exact hquantify .plus (by simp) hs
  · split at hs
    · next hyes =>
        cases hs
        cases hlazy.mp hyes
        obtain ⟨h', hmode', hlazy'⟩ := h.makeLazy
        exact h'.holds (hmode'.trans hmode) (by simp [hlazy'])
    · next hno =>
        exact hquantify .option (fun he => absurd (hlazy.mpr he) hno) hs
  · split at hs
    · split at hs
      · cases hs
        exact h.enter (by simp) (.count (.low (.blank (List.forall_mem_nil _))))
      · cases hs
    · cases hs
  · cases hs
    exact h.push_holds .dot 0
  · cases hs
    exact h.push_holds .caret 0
  · cases hs
    exact h.push_holds .dollar 0
  · cases hs
    refine h.push_holds (.char ?_) 0
    simp only [special]
    simp_all

/-! ## Escapes -/

theorem Escape.ne_nil {ds : List Char} {e : Escaped} (h : Escape ds e) :
    ds ≠ [] := by
  cases h <;> exact List.cons_ne_nil _ _

theorem hexWidth?_ne_zero {c : Char} {n : Nat} (h : hexWidth? c = some n) :
    n ≠ 0 := by
  rw [hexWidth?.eq_def] at h
  split at h
  · cases h; decide
  · cases h; decide
  · cases h; decide
  · cases h

/-- An escape that is an atom of a class. -/
theorem classAtom_sound {b : OpenClass} {front : List Char} {a : Atom}
    (hplace : EscapeText (.bracket b) front) (hne : ds ≠ [])
    (ha : ClassAtom ('\\' :: ds) a)
    (hhi : ∀ c, a = .char c → RangeEnd ('\\' :: ds) c)
    (h : Frame f st cs e) (hs : st.classAtom b a = .ok st') :
    Holds f st' (cs ++ (front ++ '\\' :: ds)) := by
  cases hplace with
  | between hgoes =>
      cases hs
      exact h.enter (by simp)
        (.bracket (.atom (hgoes.longer ds) ha (by simpa using hne)))
  | dashed hgoes hlo hdash =>
      simp only [State.classAtom] at hs
      cases hadd : OpenClass.addRange ⟨_, _, .dashed _⟩ _ a with
      | error e =>
          rw [hadd] at hs
          cases hs
      | ok b =>
          rw [hadd] at hs
          cases hs
          obtain ⟨lo, hi, rfl, rfl, hle, rfl⟩ := addRange_eq_ok hadd
          have hmore := hgoes.range hlo hdash (hhi hi rfl) hle
          rw [← List.reverse_cons] at hmore
          have hdone := h.enter (by simp) (.bracket (.between hmore))
          simpa using hdone

theorem putEscaped_sound {place : Place} {front : List Char} {x : Escaped}
    (hplace : EscapeText place front) (hx : Escape ds x) (h : Frame f st cs e)
    (hs : st.putEscaped place x = .ok st') :
    Holds f st' (cs ++ (front ++ '\\' :: ds)) := by
  rw [Reader.State.putEscaped.eq_def] at hs
  split at hs
  · cases hs
    cases hplace
    exact h.push_holds (.escape hx) 0
  · cases hs
    cases hplace
    exact h.push_holds (.escape hx) 0
  · cases hs
    cases hplace
    exact h.push_holds (.escape hx) 0
  · exact classAtom_sound hplace hx.ne_nil (.char hx)
      (by rintro c ⟨⟩; exact .escaped hx) h hs
  · exact classAtom_sound hplace hx.ne_nil (.property hx) (by simp) h hs
  · cases hs

theorem putCode_sound {place : Place} {front : List Char} {n : Nat}
    (hplace : EscapeText place front)
    (hx : n.isValidChar → Escape ds (.char (.ofNat n))) (h : Frame f st cs e)
    (hs : st.putCode place n = .ok st') :
    Holds f st' (cs ++ (front ++ '\\' :: ds)) := by
  rw [State.putCode] at hs
  split at hs
  · next hvalid => exact putEscaped_sound hplace (hx hvalid) h hs
  · cases hs

theorem stepEscape_sound {place : Place} {front : List Char} {c : Char}
    (hplace : EscapeText place front) (h : Frame f st cs e)
    (hs : Reader.stepEscape st place c = .ok st') :
    Holds f st' (cs ++ (front ++ ['\\', c])) := by
  rw [Reader.stepEscape.eq_def] at hs
  split at hs
  · cases hs
    exact h.enter (by simp) (.hexStart hplace rfl)
  · cases hs
    exact h.enter (by simp) (.hexStart hplace rfl)
  · cases hs
    exact h.enter (by simp) (.hexStart hplace rfl)
  · split at hs
    · next x hx => exact putEscaped_sound hplace (.sign hx) h hs
    · cases hs

theorem stepHexFixed_sound {place : Place} {front : List Char} {x c : Char}
    {left value : Nat} (hplace : EscapeText place front)
    (hwidth : hexWidth? x = some (ds.length + left)) (hleft : left ≠ 0)
    (hn : number? 16 Text.hexValue? ds = some value) (h : Frame f st cs e)
    (hs : Reader.stepHexFixed st left value place c = .ok st') :
    Holds f st' (cs ++ (front ++ '\\' :: x :: (ds ++ [c]))) := by
  rw [Reader.stepHexFixed] at hs
  split at hs
  · cases hs
  · next d hd =>
      have hn' : number? 16 Text.hexValue? (ds ++ [c]) =
          some (16 * value + d) := by
        rw [number?_append, hn, hd]
        rfl
      simp only at hs
      split at hs
      · next hone =>
          refine putCode_sound hplace (fun hvalid => .fixed ?_ hn' hvalid) h hs
          rw [hwidth, List.length_append, List.length_singleton]
          congr 2
          omega
      · next hmore =>
          cases hs
          refine h.enter (by simp) (.hexFixed hplace ?_ (by omega) hn')
          rw [hwidth, List.length_append, List.length_singleton]
          congr 1
          omega

theorem stepHexBraced_sound {place : Place} {front : List Char} {x c : Char}
    {value : Nat} (hplace : EscapeText place front)
    (hx : (hexWidth? x).isSome = true)
    (hn : number? 16 Text.hexValue? ds = some value) (h : Frame f st cs e)
    (hs : Reader.stepHexBraced st ds.length value place c = .ok st') :
    Holds f st' (cs ++ (front ++ '\\' :: x :: '\x7b' :: (ds ++ [c]))) := by
  rw [Reader.stepHexBraced] at hs
  split at hs
  · next hc =>
      split at hs
      · cases hs
      · next hne =>
          cases beq_iff_eq.mp hc
          exact putCode_sound hplace
            (fun hvalid => .braced hx (by simpa using hne) hn hvalid) h hs
  · split at hs
    · cases hs
    · next d hd =>
        cases hs
        have hn' : number? 16 Text.hexValue? (ds ++ [c]) =
            some (16 * value + d) := by
          rw [number?_append, hn, hd]
          rfl
        have hmore := h.enter (m := .hexBraced (ds ++ [c]).length _ place)
          (by simp) (.hexBraced hplace hx hn')
        rwa [List.length_append] at hmore

/-! ## Groups, counts and classes -/

theorem isName_append {name : List Char} {c : Char} (h : NameText name)
    (hc : isNameChar c name.isEmpty = true) : isName (name ++ [c]) = true := by
  rcases h with rfl | h
  · simpa [isName] using hc
  · cases name with
    | nil => cases h
    | cons d name =>
        rw [isName, Bool.and_eq_true] at h
        simpa [isName, h.1, h.2] using hc

theorem stepName_sound {lead name : List Char} {c : Char}
    (hlead : lead ∈ ["(?P<".toList, "(?<".toList])
    (hname : NameText name.reverse) (h : Frame f st cs e)
    (hs : Reader.stepName st name c = .ok st') :
    Holds f st' (cs ++ (lead ++ name.reverse ++ [c])) := by
  rw [Reader.stepName] at hs
  split at hs
  · next hc =>
      split at hs
      · cases hs
      · next hne =>
          split at hs
          · cases hs
          · next hfresh =>
              cases hs
              cases beq_iff_eq.mp hc
              have hok : isName name.reverse = true :=
                hname.resolve_left (by simpa using hne)
              exact (h.openNamed hlead hok (by simpa using hfresh)).holds rfl
                (by simp [State.openCapture, State.openGroup])
  · split at hs
    · next hc =>
        cases hs
        have hok := isName_append hname (by simpa using hc)
        rw [← List.reverse_cons] at hok
        have hmore := h.enter (by simp) (.groupName hlead (.inr hok))
        rwa [List.reverse_cons, ← List.append_assoc lead] at hmore
    · cases hs

theorem stepFlags_sound {given : List FlagItem} {c : Char}
    (hwritten : ds.mapM flagItem? = some given.reverse) (hnodup : given.Nodup)
    (h : Frame f st cs e) (hs : Reader.stepFlags st given c = .ok st') :
    Holds f st' (cs ++ ("(?".toList ++ ds ++ [c])) := by
  have hswitches : ¬ (given.head? == some .minus) = true →
      Switches ds given.reverse := by
    intro hdangling
    refine ⟨hwritten, List.nodup_reverse.mpr hnodup, ?_⟩
    rw [List.getLast?_reverse]
    simpa using hdangling
  rw [Reader.stepFlags.eq_def] at hs
  split at hs
  · simp only at hs
    split at hs
    · cases hs
    · next hdangling =>
        cases hs
        exact (h.openPlain (hswitches hdangling)).holds rfl
          (by simp [State.openGroup])
  · simp only at hs
    split at hs
    · cases hs
    · next hno =>
        cases hs
        rw [Bool.or_eq_true, not_or] at hno
        exact (h.switch (hswitches hno.1) (by simpa using hno.2)).holds rfl
          (by simp [State.push])
  · split at hs
    · next x hx =>
        split at hs
        · cases hs
        · next hfresh =>
            cases hs
            have hnodup' : (x :: given).Nodup :=
              List.nodup_cons.mpr ⟨by simpa using hfresh, hnodup⟩
            have hwritten' : (ds ++ [c]).mapM flagItem? =
                some (x :: given).reverse := by
              rw [List.mapM_append, hwritten, List.reverse_cons]
              simp [hx]
            rw [List.append_assoc]
            exact h.enter (by simp) (.groupFlags hwritten' hnodup')
    · cases hs

theorem stepCount_holds {k : Reader.Count} {c : Char} (hk : CountText ds k)
    (h : Frame f st cs e) (hs : Reader.stepCount st k c = .ok st') :
    Holds f st' (cs ++ ('\x7b' :: (ds ++ [c]))) := by
  rcases stepCount_sound hk hs with ⟨k', rfl, hk'⟩ | ⟨rfl, lo, hi, hcount, hs⟩
  · exact h.enter (by simp) (.count hk')
  · rw [State.counted] at hs
    split at hs
    · cases hs
    · next hno =>
        simp only [Bool.or_eq_true, decide_eq_true_eq, not_or, Nat.not_lt,
          Option.any_eq_true, not_exists, not_and] at hno
        obtain ⟨⟨hlo, hmax⟩, hhi⟩ := hno
        have hq : Quantifier ('\x7b' :: (ds ++ ['\x7d'])) lo hi :=
          .counted hcount hlo fun n hn => ⟨hmax n hn, hhi n hn⟩
        obtain ⟨h', hmode, hlazy⟩ := h.quantify hq (by simp) hs
        exact h'.holds hmode (by simp [hlazy])

theorem stepBracket_holds {b : OpenClass} {c : Char} (hb : OpenText ds b)
    (h : Frame f st cs e) (hs : Reader.stepBracket st b c = .ok st') :
    Holds f st' (cs ++ ('[' :: (ds ++ [c]))) := by
  cases stepBracket_sound hb hs with
  | more hmore => exact h.enter (by simp) (.bracket hmore)
  | escape hplace => exact h.enter (by simp) (.escape hplace)
  | close hclass => exact h.push_holds (.class hclass) _

end

/-- Reading a character keeps what is known. -/
theorem Holds.step {f : Flags} {st st' : State} {cs : List Char} {c : Char}
    (h : Holds f st cs) (hs : Reader.step st c = .ok st') :
    Holds f st' (cs ++ [c]) := by
  obtain ⟨front, back, e, rfl, hframe, hback, hlazy⟩ := h
  rw [List.append_assoc]
  rw [Reader.step.eq_def] at hs
  generalize hmode : st.mode = mode at hback hlazy hs
  cases hback with
  | items => exact stepItems_sound hframe hmode (hlazy rfl) hs
  | escape h =>
      have hdone := stepEscape_sound h hframe hs
      simpa using hdone
  | hexStart h hc =>
      simp only at hs
      split at hs
      · next heq =>
          cases hs
          cases beq_iff_eq.mp heq
          have hnone : number? 16 Text.hexValue? [] = some 0 := rfl
          have hmore := hframe.enter (by simp)
            (.hexBraced h (by rw [hc]; rfl) hnone)
          simpa using hmore
      · have hnone : number? 16 Text.hexValue? [] = some 0 := rfl
        have hdone := stepHexFixed_sound h (by simpa using hc)
          (hexWidth?_ne_zero hc) hnone hframe hs
        simpa using hdone
  | hexFixed h hc hleft hn =>
      have hdone := stepHexFixed_sound h hc hleft hn hframe hs
      simpa using hdone
  | hexBraced h hc hn =>
      have hdone := stepHexBraced_sound h hc hn hframe hs
      simpa using hdone
  | groupStart =>
      simp only at hs
      split at hs
      · next hc =>
          cases hs
          cases beq_iff_eq.mp hc
          exact hframe.enter (by simp) .groupQuestion
      · have hdone := stepItems_sound hframe.openCapture rfl
          (by simp [State.openCapture, State.openGroup]) hs
        rwa [List.append_assoc] at hdone
  | groupQuestion =>
      simp only at hs
      split at hs
      · cases hs
        exact hframe.enter (by simp) .groupNamed
      · cases hs
        exact hframe.enter (by simp) .groupAngle
      · have hnone : ([] : List Char).mapM flagItem? = some [].reverse := rfl
        exact stepFlags_sound hnone List.nodup_nil hframe hs
  | groupNamed =>
      simp only at hs
      split at hs
      · next hc =>
          cases hs
          cases beq_iff_eq.mp hc
          have hlead : "(?P<".toList ∈ ["(?P<".toList, "(?<".toList] := by simp
          exact hframe.enter (by simp) (.groupName hlead (.inl rfl))
      · cases hs
  | groupAngle =>
      have hlead : "(?<".toList ∈ ["(?P<".toList, "(?<".toList] := by simp
      exact stepName_sound hlead (.inl rfl) hframe hs
  | groupName hlead hname => exact stepName_sound hlead hname hframe hs
  | groupFlags hwritten hnodup =>
      exact stepFlags_sound hwritten hnodup hframe hs
  | count hk => exact stepCount_holds hk hframe hs
  | bracket hb => exact stepBracket_holds hb hframe hs

/-- Reading a text keeps what is known. -/
theorem Holds.foldlM {f : Flags} {st st' : State} {cs ds : List Char}
    (h : Holds f st cs) (hs : ds.foldlM Reader.step st = .ok st') :
    Holds f st' (cs ++ ds) := by
  induction ds generalizing st cs with
  | nil =>
      cases hs
      rwa [List.append_nil]
  | cons d ds ih =>
      rw [List.foldlM_cons] at hs
      cases hstep : Reader.step st d with
      | error e =>
          rw [hstep] at hs
          cases hs
      | ok st₁ =>
          rw [hstep] at hs
          have hdone := ih (h.step hstep) hs
          rwa [List.append_assoc] at hdone

theorem holds_start (f : Flags) : Holds f { flags := f } [] := by
  have hframe : Frame f { flags := f } [] .nothing :=
    ⟨_, _, [], [], .whole, .settled (.start _) (by simp [Ends]) (by simp), rfl,
      rfl⟩
  exact hframe.holds rfl (by simp)

/-- What a text is parsed into is what it stands for. -/
theorem standsFor_of_parse {f : Flags} {source : List Char} {form : Form}
    {names : List (Option (List Char))}
    (h : Reader.parse f source = .ok (form, names)) :
    StandsFor f source form names := by
  rw [Reader.parse] at h
  cases hst : source.foldlM Reader.step { flags := f } with
  | error e =>
      rw [hst] at h
      cases h
  | ok st =>
      rw [hst] at h
      replace h : Reader.finish st = .ok (form, names) := h
      obtain ⟨front, back, e, heq, hframe, hback, -⟩ :=
        (holds_start f).foldlM hst
      obtain ⟨s, t, ds, es, hopened, hb, rfl, rfl⟩ := hframe
      rw [Reader.finish.eq_def] at h
      split at h
      · next hmode hgroups =>
          rw [hmode] at hback
          rw [hgroups] at hopened
          cases hback
          cases hopened
          simp only at h
          split at h
          · cases h
          · cases h
            rw [content_form]
            rw [List.nil_append, List.nil_append, List.append_nil] at heq
            rw [heq]
            exact ⟨_, _, _, e, hb.parts.1, rfl, rfl⟩
      · cases h
      · cases h

end Codemod.Pattern.Grammar
