import Codemod.CommandLine.Arguments
import Mathlib.Logic.Basic

/-!
# Arguments with one switch more

An argument is read in a state that the arguments before it have left, so
putting one more among them could change what all later ones mean. For the
switch of check mode it does not, as long as no other argument is that switch.
`With` says how the states differ after it: the switch is set and has been
used, and all else is the same. `Steady` says of a step that it keeps this
difference; it is shown along the functions that a step is made of, and
`parse_insert_check` carries it to whole lists of arguments.
-/

namespace Codemod.CommandLine.Arguments

/-- The second state is the first one after the switch of check mode, which the
first has not used. -/
structure With (st st' : State) : Prop where
  settings : st'.settings = { st.settings with check := true }
  given : st'.given.filter (· != .check) = st.given
  pending : st'.pending = st.pending
  onlyPaths : st'.onlyPaths = st.onlyPaths

/-- A step keeps the switch once it is set, and does the same with the switch
as without it, unless it sets the switch itself. -/
structure Steady (f : State → Except Stop State) : Prop where
  keeps : ∀ {st after}, f st = .ok after → st.settings.check = true →
    after.settings.check = true
  follows : ∀ {st st' after}, With st st' → f st = .ok after →
    after.settings.check = true ∨ ∃ after', f st' = .ok after' ∧
    With after after'

theorem bind_eq_ok {α β : Type} {x : Except Stop α}
    {f : α → Except Stop β} {b : β} :
    x >>= f = .ok b ↔ ∃ a, x = .ok a ∧ f a = .ok b := by
  cases x with
  | error e =>
      constructor
      · intro h
        cases h
      · rintro ⟨a, h, -⟩
        cases h
  | ok a =>
      constructor
      · exact fun h => ⟨a, rfl, h⟩
      · rintro ⟨a', h, h'⟩
        cases h
        exact h'

/-- The state after paths are settled. -/
def State.withPaths (st : State) (values : List String) : State :=
  { st with
    pending := .nothing
    settings := { st.settings with paths := st.settings.paths ++ values }
    given :=
      if st.given.contains .paths then st.given else st.given ++ [.paths] }

namespace With

variable {st st' : State}

/-- Other arguments than the switch are used in the one state as in the
other. -/
theorem contains_eq (h : With st st') {a : Argument} (ha : a ≠ .check) :
    st'.given.contains a = st.given.contains a := by
  rw [← h.given, Bool.eq_iff_iff, List.contains_iff_mem, List.contains_iff_mem,
    List.mem_filter, bne_iff_ne]
  exact (and_iff_left ha).symm

theorem filter_append (h : With st st') {a : Argument} (ha : a ≠ .check) :
    (st'.given ++ [a]).filter (· != .check) = st.given ++ [a] := by
  rw [List.filter_append, h.given]
  simp [ha]

theorem withPaths (h : With st st') (values : List String) :
    With (st.withPaths values) (st'.withPaths values) := by
  refine ⟨by rw [State.withPaths, h.settings]; rfl, ?_, rfl, h.onlyPaths⟩
  simp only [State.withPaths, h.contains_eq (a := .paths) (by decide)]
  split
  · exact h.given
  · exact h.filter_append (by decide)

end With

namespace Steady

variable {f g : State → Except Stop State}

theorem bind (hf : Steady f) (hg : Steady g) : Steady fun st => f st >>= g := by
  constructor
  · intro st after h hst
    obtain ⟨between, hbetween, hafter⟩ := bind_eq_ok.mp h
    exact hg.keeps hafter (hf.keeps hbetween hst)
  · intro st st' after hwith h
    obtain ⟨between, hbetween, hafter⟩ := bind_eq_ok.mp h
    rcases hf.follows hwith hbetween with hset | ⟨between', hbetween', hwith'⟩
    · exact .inl (hg.keeps hafter hset)
    · rcases hg.follows hwith' hafter with hset | ⟨after', hafter', hwith''⟩
      · exact .inl hset
      · exact .inr ⟨after',
          bind_eq_ok.mpr ⟨between', hbetween', hafter'⟩, hwith''⟩

/-- A step that always succeeds. -/
theorem of_ok {g : State → State}
    (hkeeps : ∀ st, st.settings.check = true → (g st).settings.check = true)
    (hfollows : ∀ {st st'}, With st st' → With (g st) (g st')) :
    Steady fun st => .ok (g st) := by
  constructor
  · intro st after h hst
    cases h
    exact hkeeps st hst
  · intro st st' after hwith h
    cases h
    exact .inr ⟨_, rfl, hfollows hwith⟩

theorem of_error (e : Stop) : Steady fun _ => .error e :=
  ⟨nofun, nofun⟩

/-- Which of some steps is taken may depend on what both states have in
common. -/
theorem of_pending {f : State → Except Stop State}
    (h : ∀ x b, ∃ g, Steady g ∧ ∀ st, st.pending = x →
      st.onlyPaths = b → f st = g st) :
    Steady f := by
  constructor
  · intro st after hf
    obtain ⟨g, hg, heq⟩ := h st.pending st.onlyPaths
    rw [heq st rfl rfl] at hf
    exact hg.keeps hf
  · intro st st' after hwith hf
    obtain ⟨g, hg, heq⟩ := h st.pending st.onlyPaths
    rw [heq st rfl rfl] at hf
    rw [heq st' hwith.pending hwith.onlyPaths]
    exact hg.follows hwith hf

/-! ## The steps of the reader -/

theorem use {a : Argument} (ha : a ≠ .check) : Steady fun st => st.use a := by
  constructor
  · intro st after h hst
    rw [State.use] at h
    split at h
    · cases h
    · cases h
      exact hst
  · intro st st' after hwith h
    rw [State.use] at h
    split at h
    · cases h
    · next hnew =>
        cases h
        refine .inr ⟨{ st' with given := st'.given ++ [a] }, ?_, hwith.settings,
          hwith.filter_append ha, hwith.pending, hwith.onlyPaths⟩
        rw [State.use, hwith.contains_eq ha, if_neg hnew]

theorem useValue (o : Valued) (value : String) :
    Steady fun st => st.useValue o value := by
  refine (use (a := o.argument) (by cases o <;> decide)).bind ?_
  cases hvalue : value.isEmpty with
  | true => exact of_error _
  | false =>
      cases o with
      | manifest =>
          exact of_ok (fun _ h => h) fun hwith =>
            ⟨by rw [hwith.settings], hwith.given, hwith.pending,
              hwith.onlyPaths⟩
      | root =>
          exact of_ok (fun _ h => h) fun hwith =>
            ⟨by rw [hwith.settings], hwith.given, hwith.pending,
              hwith.onlyPaths⟩

theorem settle : Steady State.settle := by
  refine of_pending fun x b => ?_
  have hdone : Steady fun st => .ok { st with pending := .nothing } :=
    of_ok (fun _ h => h) fun hwith =>
      ⟨hwith.settings, hwith.given, rfl, hwith.onlyPaths⟩
  cases x with
  | nothing => exact ⟨_, hdone, fun st hx _ => by rw [State.settle, hx]⟩
  | option o value =>
      cases value with
      | none => exact ⟨_, of_error _, fun st hx _ => by rw [State.settle, hx]⟩
      | some value =>
          exact ⟨_, hdone.bind (useValue o value),
            fun st hx _ => by rw [State.settle, hx]; rfl⟩
  | paths values =>
      refine ⟨fun st => if values.any String.isEmpty then
        .error (.usage (.valueMissing .paths)) else .ok (st.withPaths values),
        ?_, fun st hx _ => by rw [State.settle, hx]; rfl⟩
      split
      · exact of_error _
      · exact of_ok (fun _ h => h) fun hwith => hwith.withPaths values

theorem positional (arg : String) : Steady fun st => st.positional arg := by
  have hnew : Steady fun st => st.settle >>= fun st =>
      .ok { st with pending := .paths [arg] } :=
    settle.bind (of_ok (fun _ h => h) fun hwith =>
      ⟨hwith.settings, hwith.given, rfl, hwith.onlyPaths⟩)
  refine of_pending fun x b => ?_
  cases x with
  | nothing => exact ⟨_, hnew, fun st hx _ => by rw [State.positional, hx]; rfl⟩
  | option o value =>
      exact ⟨_, hnew, fun st hx _ => by rw [State.positional, hx]; rfl⟩
  | paths values =>
      refine ⟨fun st => .ok { st with pending := .paths (values ++ [arg]) }, ?_,
        fun st hx _ => ?_⟩
      · exact of_ok (fun _ h => h) fun hwith =>
          ⟨hwith.settings, hwith.given, rfl, hwith.onlyPaths⟩
      · rw [State.positional, hx]

end Steady

/-- A step that gives a result has settled what was pending first. -/
def Settles (f : State → Except Stop State) : Prop :=
  ∃ k, Steady k ∧ ∀ st after, f st = .ok after ↔ (st.settle >>= k) = .ok after

namespace Settles

variable {f : State → Except Stop State}

theorem steady (h : Settles f) : Steady f := by
  obtain ⟨k, hk, heq⟩ := h
  have hboth := Steady.settle.bind hk
  refine ⟨fun hf => hboth.keeps ((heq _ _).mp hf), fun hwith hf => ?_⟩
  rcases hboth.follows hwith ((heq _ _).mp hf) with hset
    | ⟨after', hafter', hwith'⟩
  · exact .inl hset
  · exact .inr ⟨after', (heq _ _).mpr hafter', hwith'⟩

theorem of_steady {k : State → Except Stop State} (hk : Steady k) :
    Settles fun st => st.settle >>= k :=
  ⟨k, hk, fun _ _ => Iff.rfl⟩

/-- A fault that is found before anything is settled. -/
theorem of_error (e : Stop) : Settles fun _ => .error e := by
  refine ⟨fun _ => .error e, Steady.of_error e,
    fun st after => ⟨nofun, fun h => ?_⟩⟩
  obtain ⟨_, -, h⟩ := bind_eq_ok.mp h
  cases h

theorem valued (o : Valued) (attached : Option String) :
    Settles fun st => st.valued o attached := by
  cases attached with
  | none =>
      exact of_steady (Steady.of_ok (fun _ h => h) fun hwith =>
        ⟨hwith.settings, hwith.given, rfl, hwith.onlyPaths⟩)
  | some value => exact of_steady (Steady.useValue o value)

theorem listRules : Settles State.listRules :=
  of_steady ((Steady.use (a := .listRules) (by decide)).bind
      (Steady.of_ok (fun _ h => h) fun hwith =>
    ⟨by rw [hwith.settings], hwith.given, hwith.pending, hwith.onlyPaths⟩))

theorem check : Settles State.check := by
  refine of_steady (k := fun st => st.use .check >>= fun st =>
    .ok { st with settings := { st.settings with check := true } }) ?_
  have hset : ∀ {st after : State}, (st.use .check >>= fun st =>
      .ok { st with settings := { st.settings with check := true } }) =
        .ok after →
      after.settings.check = true := by
    intro st after h
    obtain ⟨between, -, h⟩ := bind_eq_ok.mp h
    cases h
    rfl
  exact ⟨fun h _ => hset h, fun _ h => .inl (hset h)⟩

theorem ask (stop : Stop) : Settles fun st => st.ask stop :=
  of_steady (Steady.of_error stop)

theorem bare (hf : Settles f) (attached : Option String) (arg : String) :
    Settles fun st => Arguments.bare attached arg (f st) := by
  cases attached with
  | none => exact hf
  | some value => exact of_error _

theorem long (cs : List Char) : Settles fun st => Arguments.long st cs := by
  unfold Arguments.long
  split
  next name attached _ =>
    split
    · exact valued .manifest attached
    · exact valued .root attached
    · exact bare check attached _
    · exact bare listRules attached _
    · exact bare (ask .help) attached _
    · exact bare (ask .version) attached _
    · exact of_error _

theorem short (letter : Char) (rest : List Char) :
    Settles fun st => Arguments.short st letter rest := by
  unfold Arguments.short
  split
  · split
    · exact valued .root none
    · exact valued .root _
    · exact valued .root _
  · exact ask .help
  · exact ask .version
  · exact of_error _

end Settles

/-- An option waits for its value. -/
def State.waits (st : State) : Prop := ∃ o, st.pending = .option o none

/-- Whether an argument ends the options, is an option or a switch, or is a
path or a value, depends on nothing but itself and on what came before it being
the end of the options. -/
theorem step_cases (b : Bool) (arg : String) :
    ∃ f, (∀ st : State, st.onlyPaths = b → step st arg = f st) ∧
      ((f = fun st => .ok { st with onlyPaths := true }) ∨ Settles f ∨
        (Steady f ∧ ∀ st : State, ¬ st.waits → f st = st.positional arg)) := by
  have hpath := Steady.positional arg
  cases b with
  | true =>
      exact ⟨_, fun st hb => if_pos hb, .inr (.inr ⟨hpath, fun _ _ => rfl⟩)⟩
  | false =>
      refine ⟨_, fun st hb => if_neg (by rw [hb]; exact Bool.false_ne_true), ?_⟩
      split
      · exact .inl rfl
      · exact .inr (.inl (.long _))
      · exact .inr (.inl (.short _ _))
      · refine .inr (.inr ⟨Steady.of_pending fun x _ => ?_,
            fun st hwaits => ?_⟩)
        · cases x with
          | option o value =>
              cases value with
              | none =>
                  refine ⟨fun st =>
                    .ok { st with pending := .option o (some arg) },
                    .of_ok (fun _ h => h) fun hwith => ?_,
                      fun st hx _ => by rw [hx]⟩
                  exact ⟨hwith.settings, hwith.given, rfl, hwith.onlyPaths⟩
              | some => exact ⟨_, hpath, fun st hx _ => by rw [hx]⟩
          | nothing | paths => exact ⟨_, hpath, fun st hx _ => by rw [hx]⟩
        · split
          · next o hpending => exact absurd ⟨o, hpending⟩ hwaits
          · rfl

namespace Steady

/-- Reading an argument is steady, whatever it is. -/
theorem step (arg : String) : Steady fun st => Arguments.step st arg := by
  refine of_pending fun _ b => ?_
  obtain ⟨f, heq, hf⟩ := step_cases b arg
  refine ⟨f, ?_, fun st _ hb => heq st hb⟩
  rcases hf with rfl | hf | hf
  · exact of_ok (fun _ h => h) fun hwith =>
      ⟨hwith.settings, hwith.given, hwith.pending, rfl⟩
  · exact hf.steady
  · exact hf.1

/-- So is reading some arguments, one after the other. -/
theorem foldlM (args : List String) :
    Steady fun st => args.foldlM Arguments.step st := by
  induction args with
  | nil => exact of_ok (fun _ h => h) fun hwith => hwith
  | cons arg args ih =>
      simp only [List.foldlM_cons]
      exact (step arg).bind ih

end Steady

/-! ## Settling early

The switch also settles what is pending, which is settled later without it.
That makes no difference either, since a step begins with settling, or adds one
more path to those that are pending. -/

theorem not_waits_of_settle {st settled : State} (h : st.settle = .ok settled) :
    ¬ st.waits := by
  rintro ⟨o, hpending⟩
  rw [State.settle, hpending] at h
  cases h

/-- The settings with the value of an option. -/
def Valued.set (o : Valued) (s : Settings) (value : String) : Settings :=
  match o with
  | .manifest => { s with manifest := some value }
  | .root => { s with root := some value }

theorem useValue_eq_ok {st after : State} {o : Valued} {value : String} :
    st.useValue o value = .ok after ↔
    st.given.contains o.argument = false ∧ value ≠ "" ∧
      after = { st with
        given :=
          st.given ++ [o.argument], settings := o.set st.settings value } := by
  rw [State.useValue, State.use]
  cases hgiven : st.given.contains o.argument with
  | true => exact ⟨nofun, nofun⟩
  | false =>
      show (if value.isEmpty then _ else _) = _ ↔ _
      cases hvalue : value.isEmpty with
      | true =>
          rw [String.isEmpty_iff] at hvalue
          exact ⟨nofun, fun h => absurd hvalue h.2.1⟩
      | false =>
          have hne : value ≠ "" := fun h => by
            rw [h] at hvalue
            cases hvalue
          cases o <;> exact ⟨fun h => ⟨rfl, hne, (Except.ok.inj h).symm⟩,
            fun h => by rw [h.2.2]; rfl⟩

/-- What settling comes to: there was nothing, or the value of an option, or
paths. -/
inductive Settled (st : State) : State → Prop where
  | nothing (hpending : st.pending = .nothing) : Settled st st
  | option {o : Valued} {value : String}
      (hpending : st.pending = .option o (some value))
      (hnew : st.given.contains o.argument = false) (hvalue : value ≠ "") :
      Settled st { st with
        pending := .nothing
        given := st.given ++ [o.argument]
        settings := o.set st.settings value }
  | paths {values : List String} (hpending : st.pending = .paths values)
      (hvalues : values.any String.isEmpty = false) :
      Settled st (st.withPaths values)

theorem settle_eq_ok {st settled : State} :
    st.settle = .ok settled ↔ Settled st settled := by
  have hdone : ∀ {x : Pending}, st.pending = x → x = .nothing →
      ({ st with pending := .nothing } : State) = st := by
    rintro x hx rfl
    rw [← hx]
  constructor
  · intro h
    rw [State.settle] at h
    split at h
    · next hpending =>
        cases h
        rw [hdone hpending rfl]
        exact .nothing hpending
    · cases h
    · next o value hpending =>
        obtain ⟨hnew, hvalue, rfl⟩ := useValue_eq_ok.mp h
        exact .option hpending hnew hvalue
    · next values hpending =>
        split at h
        · cases h
        · next hvalues =>
            cases h
            exact .paths hpending (Bool.eq_false_iff.mpr hvalues)
  · intro h
    rw [State.settle]
    cases h with
    | nothing hpending => rw [hdone hpending rfl, hpending]
    | option hpending hnew hvalue =>
        rw [hpending]
        exact useValue_eq_ok.mpr ⟨hnew, hvalue, rfl⟩
    | paths hpending hvalues =>
        rw [hpending]
        exact if_neg (by rw [hvalues]; exact Bool.false_ne_true)

theorem withPaths_append (st : State) (us vs : List String) :
    (st.withPaths us).withPaths vs = st.withPaths (us ++ vs) := by
  have hgiven : ∀ l : List Argument, (if l.contains .paths then l
      else l ++ [.paths]).contains .paths = true := by
    intro l
    split
    · next h => exact h
    · simp
  simp only [State.withPaths, hgiven, if_true, List.append_assoc]

section

variable {st settled : State}

theorem Settled.onlyPaths (h : Settled st settled) :
    settled.onlyPaths = st.onlyPaths := by
  cases h <;> rfl

theorem Settled.pending (h : Settled st settled) :
    settled.pending = .nothing := by
  cases h with
  | nothing hpending => exact hpending
  | option | paths => rfl

theorem Settled.again (h : Settled st settled) : Settled settled settled :=
  .nothing h.pending

theorem Settled.ofOnlyPaths (h : Settled st settled) (b : Bool) :
    Settled { st with onlyPaths := b } { settled with onlyPaths := b } := by
  cases h with
  | nothing hpending => exact .nothing hpending
  | option hpending hnew hvalue => exact .option hpending hnew hvalue
  | paths hpending hvalues => exact .paths hpending hvalues

theorem settled_paths_iff {values : List String}
    (hpending : st.pending = .paths values) :
    Settled st settled ↔
    values.any String.isEmpty = false ∧ settled = st.withPaths values := by
  constructor
  · intro h
    cases h with
    | nothing h | option h =>
        rw [hpending] at h
        cases h
    | paths h hvalues =>
        rw [hpending] at h
        cases h
        exact ⟨hvalues, rfl⟩
  · rintro ⟨hvalues, rfl⟩
    exact .paths hpending hvalues

/-- One more path comes to the same whether what is pending is settled before
it or with it. -/
theorem Settled.positional (h : Settled st settled) (arg : String) :
    ∃ after, st.positional arg = .ok after ∧ ¬ after.waits ∧
      ∀ last, Settled after last ↔
      arg ≠ "" ∧ last = settled.withPaths [arg] := by
  have hwaits : ∀ {after : State} {values : List String},
      after.pending = .paths values →
      ¬ after.waits := by
    rintro after values hpending ⟨o, ho⟩
    rw [hpending] at ho
    cases ho
  have hsettle := settle_eq_ok.mpr h
  have hnew : ∀ last, Settled { settled with pending := .paths [arg] } last ↔
      arg ≠ "" ∧ last = settled.withPaths [arg] := by
    intro last
    rw [settled_paths_iff rfl]
    simp [State.withPaths]
  cases h with
  | nothing hpending =>
      refine ⟨{ st with pending := .paths [arg] }, ?_, hwaits rfl, hnew⟩
      rw [State.positional, hpending, hsettle]
      rfl
  | option hpending hgiven hvalue =>
      refine ⟨_, ?_, hwaits rfl, hnew⟩
      rw [State.positional, hpending, hsettle]
      rfl
  | @paths values hpending hvalues =>
      refine ⟨{ st with pending := .paths (values ++ [arg]) }, ?_, hwaits rfl,
        fun last => ?_⟩
      · rw [State.positional, hpending]
      · rw [settled_paths_iff rfl, withPaths_append, List.any_append, hvalues]
        simp [State.withPaths]

end

/-- No option waits for a value, and what is pending cannot be settled. -/
def State.Stuck (st : State) : Prop :=
  ¬ st.waits ∧ ∀ settled, ¬ Settled st settled

theorem State.Stuck.step {st after : State} {arg : String} (h : st.Stuck)
    (hstep : Arguments.step st arg = .ok after) : after.Stuck := by
  obtain ⟨hwaits, hno⟩ := h
  have hsettle : ∀ {k : State → Except Stop State},
      (st.settle >>= k) ≠ .ok after := by
    intro k hk
    obtain ⟨settled, hsettled, -⟩ := bind_eq_ok.mp hk
    exact hno settled (settle_eq_ok.mp hsettled)
  obtain ⟨f, heq, hf⟩ := step_cases st.onlyPaths arg
  rw [heq st rfl] at hstep
  rcases hf with rfl | ⟨k, -, hk⟩ | ⟨-, hpositional⟩
  · cases hstep
    exact ⟨hwaits, fun settled hsettled =>
      hno _ (hsettled.ofOnlyPaths st.onlyPaths)⟩
  · exact absurd ((hk _ _).mp hstep) hsettle
  · rw [hpositional st hwaits, State.positional] at hstep
    split at hstep
    · next values hpending =>
        cases hstep
        refine ⟨?_, fun settled hsettled => ?_⟩
        · rintro ⟨o, ho⟩
          cases ho
        · rw [settled_paths_iff rfl, List.any_append,
            Bool.or_eq_false_iff] at hsettled
          exact hno _ (.paths hpending hsettled.1.1)
    · exact absurd hstep hsettle

/-- The two states are the same once what is pending is settled. -/
def State.Level (st st' : State) : Prop :=
  st' = st ∨ ∃ settled, Settled st settled ∧ Settled st' settled

theorem State.Level.step {st st' after : State} {arg : String}
    (h : st.Level st') (hstep : Arguments.step st arg = .ok after) :
    after.Stuck ∨ ∃ after', Arguments.step st' arg = .ok after' ∧
    after.Level after' := by
  rcases h with rfl | ⟨settled, hst, hst'⟩
  · exact .inr ⟨after, hstep, .inl rfl⟩
  · have honly : st'.onlyPaths = st.onlyPaths :=
      hst'.onlyPaths.symm.trans hst.onlyPaths
    obtain ⟨f, heq, hf⟩ := step_cases st.onlyPaths arg
    rw [heq st rfl] at hstep
    rw [heq st' honly]
    rcases hf with rfl | ⟨k, -, hk⟩ | ⟨-, hpositional⟩
    · cases hstep
      exact .inr ⟨_, rfl, .inr ⟨_, hst.ofOnlyPaths true, hst'.ofOnlyPaths true⟩⟩
    · have hsame : st'.settle = st.settle :=
        (settle_eq_ok.mpr hst').trans (settle_eq_ok.mpr hst).symm
      refine .inr ⟨after, (hk _ _).mpr ?_, .inl rfl⟩
      rw [hsame]
      exact (hk _ _).mp hstep
    · obtain ⟨one, hone, hwaits, hlast⟩ := hst.positional arg
      obtain ⟨two, htwo, -, hlast'⟩ := hst'.positional arg
      rw [hpositional st (not_waits_of_settle (settle_eq_ok.mpr hst)),
        hone] at hstep
      rw [hpositional st' (not_waits_of_settle (settle_eq_ok.mpr hst')), htwo]
      cases hstep
      by_cases harg : arg = ""
      · exact .inl ⟨hwaits, fun last h => ((hlast last).mp h).1 harg⟩
      · exact .inr ⟨two, rfl,
          .inr ⟨_, (hlast _).mpr ⟨harg, rfl⟩, (hlast' _).mpr ⟨harg, rfl⟩⟩⟩

theorem State.Stuck.foldlM {st last : State} {args : List String} (h : st.Stuck)
    (hfold : args.foldlM Arguments.step st = .ok last) : last.Stuck := by
  induction args generalizing st with
  | nil =>
      cases hfold
      exact h
  | cons arg args ih =>
      rw [List.foldlM_cons] at hfold
      obtain ⟨after, hafter, hfold⟩ := bind_eq_ok.mp hfold
      exact ih (h.step hafter) hfold

theorem State.Level.foldlM {st st' last : State} {args : List String}
    (h : st.Level st') (hfold : args.foldlM Arguments.step st = .ok last) :
    last.Stuck ∨ ∃ last', args.foldlM Arguments.step st' = .ok last' ∧
    last.Level last' := by
  induction args generalizing st st' with
  | nil =>
      cases hfold
      exact .inr ⟨st', rfl, h⟩
  | cons arg args ih =>
      rw [List.foldlM_cons] at hfold
      obtain ⟨after, hafter, hfold⟩ := bind_eq_ok.mp hfold
      rcases h.step hafter with hstuck | ⟨after', hafter', hlevel⟩
      · exact .inl (hstuck.foldlM hfold)
      · rcases ih hlevel hfold with hstuck | ⟨last', hlast', hlevel'⟩
        · exact .inl hstuck
        · refine .inr ⟨last', ?_, hlevel'⟩
          rw [List.foldlM_cons]
          exact bind_eq_ok.mpr ⟨after', hafter', hlast'⟩

/-! ## The switch among other arguments -/

/-- What is asked for at the end, once what is pending is settled. -/
theorem finish_eq_ok {st : State} {s : Settings} : finish st = .ok s ↔
    ∃ settled, Settled st settled ∧ s = settled.settings ∧
      ∀ a b, (settled.given.filter fun a => a == .manifest || a == .paths) ≠
        [a, b] := by
  constructor
  · intro h
    obtain ⟨settled, hsettled, h⟩ := bind_eq_ok.mp h
    refine ⟨settled, settle_eq_ok.mp hsettled, ?_⟩
    split at h
    · cases h
    · next hone =>
        cases h
        exact ⟨rfl, hone⟩
  · rintro ⟨settled, hsettled, rfl, hone⟩
    refine bind_eq_ok.mpr ⟨settled, settle_eq_ok.mpr hsettled, ?_⟩
    split
    · next a b h => exact absurd h (hone a b)
    · rfl

/-- What is asked for at the end is asked for with the switch as well. -/
theorem With.finish {settled settled' : State} (h : With settled settled')
    (hone : ∀ a b,
      (settled.given.filter fun a => a == .manifest || a == .paths) ≠ [a, b]) :
    ∀ a b, (settled'.given.filter fun a => a == .manifest || a == .paths) ≠
      [a, b] := by
  rw [← h.given, List.filter_filter] at hone
  have hsame : (settled'.given.filter fun a => a == .manifest || a == .paths) =
      settled'.given.filter fun a => (a == .manifest || a == .paths) &&
      a != .check :=
    List.filter_congr fun a _ => by cases a <;> rfl
  rw [hsame]
  exact hone

theorem With.not_mem {st st' : State} (h : With st st') :
    Argument.check ∉ st.given := by
  rw [← h.given, List.mem_filter]
  exact fun hmem => absurd hmem.2 (by decide)

/-- The switch where nothing is pending. -/
def State.checked (st : State) : State :=
  { st with
    given := st.given ++ [.check]
    settings := { st.settings with check := true } }

theorem with_checked {st : State} (h : Argument.check ∉ st.given) :
    With st st.checked := by
  refine ⟨rfl, ?_, rfl, rfl⟩
  show (st.given ++ [Argument.check]).filter (· != .check) = st.given
  have hall : ∀ a ∈ st.given, (a != .check) = true := by
    intro a ha
    rw [bne_iff_ne]
    rintro rfl
    exact h ha
  rw [List.filter_append, List.filter_eq_self.mpr hall]
  exact List.append_nil _

theorem step_check {st settled : State} (honly : st.onlyPaths = false)
    (h : Settled st settled) (hnew : Argument.check ∉ settled.given) :
    step st "--check" = .ok settled.checked := by
  rw [step, if_neg (by rw [honly]; exact Bool.false_ne_true)]
  show st.check = _
  rw [State.check, settle_eq_ok.mpr h]
  show (settled.use .check >>= _) = _
  rw [State.use, if_neg (by rw [List.contains_iff_mem]; exact hnew)]
  rfl

/-- A switch can stand behind these arguments: no option waits for its value
there, and no `--` has made paths of all that follows. -/
def Open (front : List String) : Prop :=
  ∃ st, front.foldlM step {} = .ok st ∧ st.onlyPaths = false ∧ ¬ st.waits

/-- Putting the switch of check mode among arguments that ask neither for it
nor for anything that stands in its way asks for the same in check mode. -/
theorem parse_insert_check {front back : List String} {s : Settings}
    (h : parse (front ++ back) = .ok s)
    (hcheck : s.check = false) (hopen : Open front) :
    parse (front ++ "--check" :: back) = .ok { s with check := true } := by
  obtain ⟨st, hfront, honly, hwaits⟩ := hopen
  obtain ⟨last, hlast, hfinish⟩ := bind_eq_ok.mp h
  obtain ⟨settled, hsettled, rfl, hone⟩ := finish_eq_ok.mp hfinish
  rw [List.foldlM_append, hfront] at hlast
  have hnot : ¬ settled.settings.check = true := by
    rw [hcheck]
    exact Bool.false_ne_true
  obtain ⟨between, hbetween⟩ : ∃ between, Settled st between := by
    by_cases hcan : ∃ between, Settled st between
    · exact hcan
    · have hstuck : st.Stuck := ⟨hwaits, not_exists.mp hcan⟩
      exact absurd hsettled ((hstuck.foldlM hlast).2 settled)
  obtain ⟨last', hlast', hlevel⟩ :
      ∃ last', back.foldlM step between = .ok last' ∧
      last.Level last' := by
    rcases State.Level.foldlM (.inr ⟨between, hbetween, hbetween.again⟩) hlast
      with hstuck | h
    · exact absurd hsettled (hstuck.2 settled)
    · exact h
  have hsettled' : Settled last' settled := by
    rcases hlevel with rfl | ⟨other, hother, hother'⟩
    · exact hsettled
    · cases (settle_eq_ok.mpr hother).symm.trans (settle_eq_ok.mpr hsettled)
      exact hother'
  have hrest : (back.foldlM step between >>= State.settle) = .ok settled :=
    bind_eq_ok.mpr ⟨last', hlast', settle_eq_ok.mpr hsettled'⟩
  have hsteady := (Steady.foldlM back).bind Steady.settle
  have hnew : Argument.check ∉ between.given := by
    have hstart : With {} (State.checked {}) := with_checked List.not_mem_nil
    rcases ((Steady.foldlM front).bind Steady.settle).follows hstart
      (bind_eq_ok.mpr ⟨st, hfront, settle_eq_ok.mpr hbetween⟩) with hset
      | ⟨_, -, hwith⟩
    · exact absurd (hsteady.keeps hrest hset) hnot
    · exact hwith.not_mem
  rcases hsteady.follows (with_checked hnew) hrest with hset
    | ⟨after, hafter, hwith⟩
  · exact absurd hset hnot
  obtain ⟨end', hend', hafter⟩ := bind_eq_ok.mp hafter
  refine bind_eq_ok.mpr ⟨end', ?_, finish_eq_ok.mpr
    ⟨after, settle_eq_ok.mp hafter, hwith.settings.symm, hwith.finish hone⟩⟩
  rw [List.foldlM_append, hfront]
  show (("--check" :: back).foldlM step st) = _
  rw [List.foldlM_cons, step_check honly hbetween hnew]
  exact hend'

end Codemod.CommandLine.Arguments
