import Codemod.Proofs.CheckStatus

/-!
# A manifest in the place of paths

Targets can be listed in a manifest or named behind `--`, and the program does
the same. The arguments in front of them, a root and the switch of check mode,
leave a state that `Fresh` describes: no targets are named in it, and at most a
root is to be settled. From there both ways to go on settle the same root or
fail as settling fails. What differs then in the settings, a path of a manifest
or the paths in it, makes no difference to the targets.
-/

namespace Codemod

theorem Manifest.load_eq_ok {tree : FileTree} {path : String}
    {files : List String} (h : Manifest.load tree path = .ok ⟨files⟩) :
    path ≠ "" ∧ files.any String.isEmpty = false := by
  rw [load] at h
  split at h
  · cases h
  · next content hread =>
      refine ⟨?_, ?_⟩
      · rintro rfl
        cases hread
      · rw [parse] at h
        split at h
        · cases h
        · split at h
          · cases h
          · next hne =>
              cases h
              exact Bool.eq_false_iff.mpr hne

namespace CommandLine

/-- An argument in front of the targets: a root directory, or the switch of
check mode. -/
inductive Flag where
  | root (dir : String)
  | check

/-- The way a flag is written. -/
def Flag.args : Flag → List String
  | .root dir => ["-C", dir]
  | .check => ["--check"]

namespace Arguments

/-- Only flags have been read. -/
structure Fresh (st : State) : Prop where
  manifest : st.settings.manifest = none
  paths : st.settings.paths = []
  listRules : st.settings.listRules = false
  given : ∀ a ∈ st.given, a = .root ∨ a = .check
  pending : st.pending = .nothing ∨ ∃ value, st.pending = .option .root value
  onlyPaths : st.onlyPaths = true → st.pending = .option .root none

namespace Fresh

variable {st settled after : State}

theorem of_settled (h : Fresh st) (hsettled : Settled st settled) :
    Fresh settled := by
  cases hsettled with
  | nothing => exact h
  | @option o value hpending hnew hvalue =>
      rcases h.pending with hnone | ⟨other, hother⟩
      · cases hnone.symm.trans hpending
      · cases hother.symm.trans hpending
        refine ⟨h.manifest, h.paths, h.listRules, fun a ha => ?_, .inl rfl,
          fun honly => ?_⟩
        · rcases List.mem_append.mp ha with hold | hroot
          · exact h.given a hold
          · exact .inl (List.mem_singleton.mp hroot)
        · cases (h.onlyPaths honly).symm.trans hpending
  | paths hpending =>
      rcases h.pending with hnone | ⟨other, hother⟩
      · cases hnone.symm.trans hpending
      · cases hother.symm.trans hpending

theorem positional_eq (h : Fresh st) (b : Bool) (arg : String) :
    ({ st with onlyPaths := b } : State).positional arg =
      ({ st with onlyPaths := b } : State).settle >>= fun settled =>
        .ok { settled with pending := .paths [arg] } := by
  rcases h.pending with hpending | ⟨value, hpending⟩
  · simp only [State.positional, hpending]
    rfl
  · simp only [State.positional, hpending]
    rfl

/-- When a root is still wanted behind `--`, no argument is read. -/
theorem settle_eq_error (h : Fresh st)
    (honly : st.onlyPaths = true) (arg : String) :
    ∃ e, st.settle = .error e ∧ step st arg = .error e := by
  have herror : st.settle = .error (.usage (.valueMissing .root)) := by
    rw [State.settle, h.onlyPaths honly]
    rfl
  refine ⟨_, herror, ?_⟩
  rw [step, if_pos honly, h.positional_eq st.onlyPaths arg, herror]
  rfl

theorem step_eq_ok {arg : String} (h : Fresh st)
    (hstep : step st arg = .ok after) :
    st.onlyPaths = false := by
  cases honly : st.onlyPaths with
  | false => rfl
  | true =>
      obtain ⟨e, -, herror⟩ := h.settle_eq_error honly arg
      cases herror.symm.trans hstep

theorem check (h : Fresh st) (hstep : step st "--check" = .ok after) :
    Fresh after := by
  have honly := h.step_eq_ok hstep
  rw [step, if_neg (by rw [honly]; exact Bool.false_ne_true)] at hstep
  obtain ⟨settled, hsettled, hstep⟩ :=
    bind_eq_ok.mp (show st.check = .ok after from hstep)
  obtain ⟨used, hused, hstep⟩ := bind_eq_ok.mp hstep
  have hfresh := h.of_settled (settle_eq_ok.mp hsettled)
  rw [State.use] at hused
  split at hused
  · cases hused
  · cases hused
    cases hstep
    refine ⟨hfresh.manifest, hfresh.paths, hfresh.listRules, fun a ha => ?_,
      hfresh.pending, hfresh.onlyPaths⟩
    rcases List.mem_append.mp ha with hold | hcheck
    · exact hfresh.given a hold
    · exact .inr (List.mem_singleton.mp hcheck)

theorem root {dir : String} (h : Fresh st) (hstep : step st "-C" = .ok settled)
    (hdir : step settled dir = .ok after) : Fresh after := by
  have honly := h.step_eq_ok hstep
  rw [step, if_neg (by rw [honly]; exact Bool.false_ne_true)] at hstep
  obtain ⟨between, hbetween, hstep⟩ :=
    bind_eq_ok.mp (show st.valued .root none = .ok settled from hstep)
  cases hstep
  have hbetween := settle_eq_ok.mp hbetween
  have hfresh := h.of_settled hbetween
  have hwaits : ∀ {f : State → Except Stop State}, Settles f →
      f { between with pending := .option .root none } ≠ .ok after := by
    rintro f ⟨k, -, hk⟩ hf
    obtain ⟨_, hsettle, -⟩ := bind_eq_ok.mp ((hk _ _).mp hf)
    cases hsettle
  rw [step, if_neg
    (by rw [hbetween.onlyPaths, honly]; exact Bool.false_ne_true)] at hdir
  split at hdir
  · cases hdir
    exact ⟨hfresh.manifest, hfresh.paths, hfresh.listRules, hfresh.given,
      .inr ⟨_, rfl⟩, fun _ => rfl⟩
  · exact absurd hdir (hwaits (.long _))
  · exact absurd hdir (hwaits (.short _ _))
  · cases hdir
    refine ⟨hfresh.manifest, hfresh.paths, hfresh.listRules, hfresh.given,
      .inr ⟨_, rfl⟩, fun h => ?_⟩
    rw [hbetween.onlyPaths, honly] at h
    cases h

theorem flags {flags : List Flag} (h : Fresh st)
    (hfold : (flags.flatMap Flag.args).foldlM step st = .ok after) :
    Fresh after := by
  induction flags generalizing st with
  | nil =>
      cases hfold
      exact h
  | cons flag flags ih =>
      rw [List.flatMap_cons, List.foldlM_append] at hfold
      obtain ⟨between, hflag, hfold⟩ := bind_eq_ok.mp hfold
      refine ih ?_ hfold
      cases flag with
      | check =>
          obtain ⟨_, hstep, hnil⟩ := bind_eq_ok.mp hflag
          cases hnil
          exact h.check hstep
      | root dir =>
          obtain ⟨waiting, hstep, hflag⟩ := bind_eq_ok.mp hflag
          obtain ⟨_, hdir, hnil⟩ := bind_eq_ok.mp hflag
          cases hnil
          exact h.root hstep hdir

theorem not_contains (h : Fresh st) {a : Argument}
    (ha : (a == .manifest || a == .paths) = true) :
    st.given.contains a = false := by
  rw [Bool.eq_false_iff, ne_eq, List.contains_iff_mem]
  intro hmem
  rcases h.given a hmem with rfl | rfl <;> cases ha

/-- One of the two ways to list the targets does not exclude the other if that
has not been used. -/
theorem finish_eq {last : State} {a : Argument} (h : Fresh st)
    (hlast : Settled after last) (ha : (a == .manifest || a == .paths) = true)
    (hgiven : last.given = st.given ++ [a]) :
    finish after = .ok last.settings := by
  have hnone :
      st.given.filter (fun a => a == .manifest || a == .paths) = [] := by
    rw [List.filter_eq_nil_iff]
    intro b hb
    rcases h.given b hb with rfl | rfl <;> decide
  refine finish_eq_ok.mpr ⟨last, hlast, rfl, fun b c hboth => ?_⟩
  rw [hgiven, List.filter_append, hnone, List.filter_singleton, ha] at hboth
  cases hboth

end Fresh

/-- The argument reads as an option or a switch. -/
def Optionlike (arg : String) : Prop := ∃ c cs, arg.toList = '-' :: c :: cs

theorem cutValue_append (cs : List Char) :
    cutValue ("manifest=".toList ++ cs) =
      ("manifest", some (String.ofList cs)) :=
  rfl

/-- The ways that a manifest can be given: its path is attached, or it follows
and does not read as an option itself. -/
def ManifestArgs (path : String) (args : List String) : Prop :=
  args = ["--manifest=" ++ path] ∨ args = ["--manifest", path] ∧
    ¬ Optionlike path

theorem step_attached {st : State}
    (honly : st.onlyPaths = false) (path : String) :
    step st ("--manifest=" ++ path) = st.settle >>= fun settled =>
      settled.useValue .manifest path := by
  rw [step, if_neg (by rw [honly]; exact Bool.false_ne_true)]
  rw [String.toList_append]
  show long st ("manifest=".toList ++ path.toList) = _
  rw [long, cutValue_append, String.ofList_toList]
  rfl

theorem step_manifest {st : State} (honly : st.onlyPaths = false) :
    step st "--manifest" = st.settle >>= fun settled =>
      .ok { settled with pending := .option .manifest none } := by
  rw [step, if_neg (by rw [honly]; exact Bool.false_ne_true)]
  rfl

theorem step_waiting {st : State} (honly : st.onlyPaths = false) {path : String}
    (hpath : ¬ Optionlike path) (o : Valued) :
    step { st with pending := .option o none } path =
      .ok { st with pending := .option o (some path) } := by
  rw [step, if_neg (by rw [honly]; exact Bool.false_ne_true)]
  split
  · next h => exact absurd ⟨_, _, h⟩ hpath
  · next h => exact absurd ⟨_, _, h⟩ hpath
  · next h => exact absurd ⟨_, _, h⟩ hpath
  · rfl

/-- Some paths behind `--` are gathered. -/
theorem foldlM_paths {st : State} {paths : List String}
    (honly : st.onlyPaths = true)
    (hpending : st.pending = .paths paths) (more : List String) :
    more.foldlM step st =
      .ok { st with pending := .paths (paths ++ more) } := by
  induction more generalizing st paths with
  | nil =>
      rw [List.append_nil, ← hpending]
      rfl
  | cons path more ih =>
      rw [List.foldlM_cons, step, if_pos honly, State.positional, hpending]
      show more.foldlM step { st with pending := .paths (paths ++ [path]) } = _
      refine (ih ?_ rfl).trans ?_
      · exact honly
      · rw [List.append_assoc]
        rfl

theorem settle_onlyPaths (st : State) (b : Bool) :
    ({ st with onlyPaths := b } : State).settle =
    st.settle >>= fun settled => .ok { settled with onlyPaths := b } := by
  obtain ⟨settings, given, pending, onlyPaths⟩ := st
  cases pending with
  | nothing => rfl
  | option o value =>
      cases value with
      | none => rfl
      | some value =>
          simp only [State.settle, State.useValue, State.use]
          cases given.contains o.argument with
          | true => rfl
          | false =>
              cases hvalue : value.isEmpty with
              | true => simp [bind, Except.bind]
              | false => cases o <;> simp [bind, Except.bind]
  | paths values =>
      simp only [State.settle]
      cases values.any String.isEmpty <;> rfl

namespace Fresh

variable {st : State} {path : String} {args files : List String}

/-- A manifest is asked for once what is pending is settled. -/
theorem reads_manifest (h : Fresh st) (hpath : path ≠ "")
    (hargs : ManifestArgs path args) :
    (args.foldlM step st >>= finish) = st.settle >>= fun settled =>
        .ok { settled.settings with manifest := some path } := by
  cases honly : st.onlyPaths with
  | true =>
      obtain ⟨arg, rest, rfl⟩ : ∃ arg rest, args = arg :: rest := by
        rcases hargs with rfl | ⟨rfl, -⟩ <;> exact ⟨_, _, rfl⟩
      obtain ⟨e, hsettle, hstep⟩ := h.settle_eq_error honly arg
      rw [List.foldlM_cons, hstep, hsettle]
      rfl
  | false =>
      rcases hargs with rfl | ⟨rfl, hplain⟩
      · rw [List.foldlM_cons, step_attached honly]
        cases hsettle : st.settle with
        | error e => rfl
        | ok settled =>
            have hsettled := settle_eq_ok.mp hsettle
            have hnew :=
              (h.of_settled hsettled).not_contains (a := .manifest) rfl
            let used : State := { settled with
              given := settled.given ++ [.manifest]
              settings := { settled.settings with manifest := some path } }
            have hused : settled.useValue .manifest path = .ok used :=
              useValue_eq_ok.mpr ⟨hnew, hpath, rfl⟩
            have hlast : Settled used used := .nothing hsettled.pending
            show ((settled.useValue .manifest path >>= pure) >>= finish) = _
            rw [hused]
            exact (h.of_settled hsettled).finish_eq hlast rfl rfl
      · rw [List.foldlM_cons, step_manifest honly]
        cases hsettle : st.settle with
        | error e => rfl
        | ok settled =>
            have hsettled := settle_eq_ok.mp hsettle
            show ([path].foldlM step
              { settled with pending := .option .manifest none } >>= finish) = _
            rw [List.foldlM_cons,
              step_waiting (hsettled.onlyPaths.trans honly) hplain]
            have hnew :=
              (h.of_settled hsettled).not_contains (a := .manifest) rfl
            let waiting : State :=
              { settled with pending := .option .manifest (some path) }
            have hlast : Settled waiting _ := .option rfl hnew hpath
            exact (h.of_settled hsettled).finish_eq hlast rfl rfl

/-- Paths behind `--` are asked for once what is pending is settled. -/
theorem reads_paths (h : Fresh st) (hne : files ≠ [])
    (hfiles : files.any String.isEmpty = false) :
    (("--" :: files).foldlM step st >>= finish) = st.settle >>= fun settled =>
        .ok { settled.settings with paths := files } := by
  cases honly : st.onlyPaths with
  | true =>
      obtain ⟨e, hsettle, hstep⟩ := h.settle_eq_error honly "--"
      rw [List.foldlM_cons, hstep, hsettle]
      rfl
  | false =>
      obtain ⟨file, more, rfl⟩ := List.exists_cons_of_ne_nil hne
      have hclosed : step st "--" = .ok { st with onlyPaths := true } :=
        if_neg (by rw [honly]; exact Bool.false_ne_true)
      have hfirst : step { st with onlyPaths := true } file =
          st.settle >>= fun settled =>
          .ok { settled with onlyPaths := true, pending := .paths [file] } := by
        rw [step, if_pos rfl, h.positional_eq, settle_onlyPaths, bind_assoc]
        rfl
      rw [List.foldlM_cons, hclosed]
      show (((file :: more).foldlM step { st with onlyPaths := true }) >>=
        finish) = _
      rw [List.foldlM_cons, hfirst]
      cases hsettle : st.settle with
      | error e => rfl
      | ok settled =>
          show ((more.foldlM step
              { settled with onlyPaths := true, pending := .paths [file] }) >>=
            finish) = _
          rw [foldlM_paths rfl rfl]
          have hfresh := h.of_settled (settle_eq_ok.mp hsettle)
          show finish _ = _
          rw [hfresh.finish_eq (.paths rfl hfiles) (a := .paths) rfl]
          · rw [State.withPaths, hfresh.paths]
            rfl
          · rw [State.withPaths, hfresh.not_contains rfl]
            rfl

end Fresh

theorem fresh_start : Fresh {} :=
  ⟨rfl, rfl, rfl, nofun, .inl rfl, nofun⟩

end Arguments

open Arguments

/-- The rules go over the same targets, however these are named. -/
theorem execute_congr {tree : FileTree} {s s' : Settings} {named : List String}
    (hnamed : namedTargets tree s = .ok named)
    (hnamed' : namedTargets tree s' = .ok named) (hroot : s'.root = s.root)
    (hcheck : s'.check = s.check) (hlist : s'.listRules = s.listRules) :
    execute tree s' = execute tree s := by
  have hrooted : rooted s' named = rooted s named := by
    rw [rooted, rooted, hroot]
  have hmode : s'.mode = s.mode := by rw [Settings.mode, Settings.mode, hcheck]
  have hmigrate : ∀ rules, migrate rules tree s' (rooted s' named) =
      migrate rules tree s (rooted s named) := by
    intro rules
    rw [migrate, migrate, hmode, hrooted]
  rw [execute, execute]
  generalize Migration.rules = compiled
  cases compiled with
  | error e => rfl
  | ok rules => simp only [executeWith, hlist, hnamed, hnamed', hmigrate]

/-- A manifest that lists some targets can be given in the place of the targets
behind `--`: from the same tree and with the same flags the program does the
same, that is, it leaves the same tree, ends with the same status and says the
same. The path of the manifest is attached to the option, or it follows as an
argument that does not read as an option itself. -/
theorem run_manifest_eq_run_paths (tree : FileTree)
    (flags : List Flag) {path : String} {args files : List String}
    (hload : Manifest.load tree path = .ok ⟨files⟩) (hne : files ≠ [])
    (hargs : ManifestArgs path args) :
    run tree (flags.flatMap Flag.args ++ args) =
      run tree (flags.flatMap Flag.args ++ "--" :: files) := by
  obtain ⟨hpath, hfiles⟩ := Manifest.load_eq_ok hload
  cases hfold : (flags.flatMap Flag.args).foldlM step {} with
  | error e =>
      have hparse : ∀ rest, parse (flags.flatMap Flag.args ++ rest) =
          .error e := by
        intro rest
        rw [parse, List.foldlM_append, hfold]
        rfl
      rw [run, run, hparse, hparse]
  | ok st =>
      have hfresh : Fresh st := fresh_start.flags hfold
      have hparse : ∀ rest, parse (flags.flatMap Flag.args ++ rest) =
          (rest.foldlM step st >>= finish) := by
        intro rest
        rw [parse, List.foldlM_append, hfold]
        rfl
      have hmanifest := (hparse args).trans (hfresh.reads_manifest hpath hargs)
      have hpaths :=
        (hparse ("--" :: files)).trans (hfresh.reads_paths hne hfiles)
      cases hsettle : st.settle with
      | error e =>
          rw [hsettle] at hmanifest hpaths
          rw [run, run, hmanifest, hpaths]
          rfl
      | ok settled =>
          rw [hsettle] at hmanifest hpaths
          have hsettled := hfresh.of_settled (settle_eq_ok.mp hsettle)
          rw [run_of_parse hmanifest, run_of_parse hpaths]
          have hlisted :
            namedTargets tree { settled.settings with manifest := some path } =
              .ok files := by
            simp only [namedTargets, hload]
            rfl
          have hgiven : namedTargets tree
              { settled.settings with paths := files } = .ok files := by
            simp only [namedTargets, hsettled.manifest,
              List.isEmpty_iff, if_neg hne]
          exact execute_congr hgiven hlisted rfl rfl rfl

/-- A draft and a manifest that lists it, whose name begins with a dash. -/
def listed : FileTree where
  entries := [(["-m"], .file { contents := .text "files = ['a']" }),
    (["a"], .file { contents := .text "old()" })]

/-- The manifest can be given in the place of the draft if its path begins
otherwise. -/
theorem run_manifest_eq_run_paths_listed :
    Manifest.load listed "./-m" = .ok ⟨["a"]⟩ ∧
    run listed ["-C", ".", "--check", "--manifest", "./-m"] =
      run listed ["-C", ".", "--check", "--", "a"] := by
  have hload : Manifest.load listed "./-m" = .ok ⟨["a"]⟩ := by decide +kernel
  have hplain : ¬ Optionlike "./-m" := by
    rintro ⟨c, cs, h⟩
    cases h
  exact ⟨hload, run_manifest_eq_run_paths listed [.root ".", .check] hload
    (List.cons_ne_nil _ _) (.inr ⟨rfl, hplain⟩)⟩

/-- A path that begins with a dash is refused behind `--manifest`, though there
is a manifest and the draft that it lists can be named. -/
theorem run_dashed_manifest :
    Manifest.load listed "-m" = .ok ⟨["a"]⟩ ∧
    (run listed ["--check", "--manifest", "-m"]).exit = 2 ∧
    (run listed ["--check", "--", "a"]).exit = 0 := by
  have hload : Manifest.load listed "-m" = .ok ⟨["a"]⟩ := by decide +kernel
  have hrefused : parse ["--check", "--manifest", "-m"] =
      .error (.usage (.unknown "-m")) := by
    decide +kernel
  have hparse : parse ["--check", "--", "a"] =
      .ok { check := true, paths := ["a"] } := by
    decide +kernel
  refine ⟨hload, by rw [run, hrefused], ?_⟩
  obtain ⟨r₁, r₂, r₃, r₄, r₅, hrules, -, hset⟩ := Migration.rules_eq_ok
  rw [run_of_parse hparse, (execute_check listed hrules rfl rfl).2]
  refine ⟨_, rfl, fun path hmem _ => ?_⟩
  cases List.mem_singleton.mp hmem
  exact ⟨_, rfl, Migration.run_draft hset⟩

end CommandLine

end Codemod
