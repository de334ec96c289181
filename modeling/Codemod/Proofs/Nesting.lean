import Codemod.Proofs.Brackets
import Codemod.Proofs.Copies
import Codemod.Proofs.SecondPass

/-!
# Brackets after a migration

No rule of the migration upsets the brackets of a document. For the first four
rules that is a matter of evaluation: the outlines of a match and of its
replacement leave no doubt about brackets, and both are well nested
(`Outline.signs?`). The last rule takes two subjects out of the parentheses
around them and puts them side by side. What brackets these hold is not known,
but parentheses are one level deep in them, so in a document that is well
nested they are well nested by themselves and can be put anywhere.
-/

namespace Codemod

open Pattern Migration

namespace Pattern

def Stroke.signs? (x : Stroke) : Option (List Sign) :=
  match Sign.all.find? fun y => isJust y.char x with
  | some y => some [y]
  | none => if Sign.all.all fun y => avoids y.char x then some [] else none

/-- The brackets in a text of the outline, if it leaves no doubt about them. -/
def Outline.signs? : Outline → Option (List Sign)
  | [] => some []
  | x :: o => do return (← x.signs?) ++ (← signs? o)

theorem of?_of_avoids {rs : Text.Ranges} {c : Char}
    (h : (Sign.all.all fun y => avoids y.char (.one rs)) = true)
    (hc : Covers rs c) :
    Sign.of? c = none := by
  refine Option.eq_none_iff_forall_ne_some.mpr fun y hy => ?_
  have havoids := List.all_eq_true.mp h y (Sign.mem_all y)
  exact ne_of_avoids havoids hc (Sign.of?_eq_some.mp hy).symm

theorem Stroke.signs_one {rs : Text.Ranges} {c : Char} {xs : List Sign}
    (h : Stroke.signs? (.one rs) = some xs) (hc : Covers rs c) (w : List Char) :
    signs (c :: w) = xs ++ signs w := by
  rw [Stroke.signs?] at h
  split at h
  · next y hy =>
      cases h
      have hjust := List.find?_some hy
      exact signs_cons_of_some
        (Sign.of?_eq_some.mpr (eq_of_isJust hjust hc).symm) w
  · split at h
    · next hall =>
        cases h
        exact signs_cons_of_none (of?_of_avoids hall hc) w
    · cases h

/-- A run leaves no doubt about its brackets only if it has none. -/
theorem Stroke.signs_run {rs : Text.Ranges} {xs : List Sign}
    (h : Stroke.signs? (.run rs) = some xs) :
    xs = [] ∧ ∀ c, Covers rs c → Sign.of? c = none := by
  rw [Stroke.signs?] at h
  split at h
  · next y hy =>
      have hjust := List.find?_some hy
      cases hjust
  · split at h
    · next hall =>
        cases h
        exact ⟨rfl, fun c hc => of?_of_avoids hall hc⟩
    · cases h

theorem Fits.signs {o : Outline} {w : List Char} {xs : List Sign} (h : Fits o w)
    (ho : o.signs? = some xs) : signs w = xs := by
  induction h generalizing xs with
  | nil =>
      cases ho
      rfl
  | one hc _ ih =>
      obtain ⟨ys, hys, ho⟩ := Option.bind_eq_some_iff.mp ho
      obtain ⟨zs, hzs, ho⟩ := Option.bind_eq_some_iff.mp ho
      cases ho
      rw [Stroke.signs_one hys hc, ih hzs]
  | skip _ ih =>
      obtain ⟨ys, hys, ho⟩ := Option.bind_eq_some_iff.mp ho
      obtain ⟨zs, hzs, ho⟩ := Option.bind_eq_some_iff.mp ho
      cases ho
      rw [(Stroke.signs_run hys).1, ih hzs]
      rfl
  | more hc _ ih =>
      obtain ⟨ys, hys, -⟩ := Option.bind_eq_some_iff.mp ho
      rw [signs_cons_of_none ((Stroke.signs_run hys).2 _ hc), ih ho]

end Pattern

theorem Rule.apply_keeps {r : Rule} {x : Regex} (hx : r.pattern.Denotes x)
    {document : String} {edit : Edit} (happly : r.apply document = .ok edit)
    (hmade : ∀ m l, Takes document.toList.toArray x m.start m.stop l → m.Has l →
      ∃ s, r.produce (r.hit document m) = .ok s ∧
        Keeps (signs (m.text document.toList.toArray)) (signs s.toList)) :
    Keeps (signs document.toList) (signs edit.text.toList) := by
  obtain ⟨gs, us, vs, -, hkeeps, hold, hnew, -⟩ := Rule.apply_weave
    (R := fun u v => Keeps (signs u) (signs v)) hx happly hmade
  rw [hold, hnew]
  exact .weave hkeeps

namespace Migration

/-! ## The first four rules -/

/-- The brackets in a text of the outline are known, and well nested. -/
def nests (o : Outline) : Bool := o.signs?.any fun xs => decide (WellNested xs)

theorem wellNested_of_nests {o : Outline} {w : List Char}
    (ho : nests o = true) (h : Fits o w) :
    WellNested (signs w) := by
  rw [nests, Option.any_eq_true] at ho
  obtain ⟨xs, hxs, hnested⟩ := ho
  rw [h.signs hxs]
  exact of_decide_eq_true hnested

/-- What has the shape is well nested, and so is what the template makes of
it. -/
def fillNests (s : Shape) (t : Template) (names : List String) : Bool :=
  nests (meaning s).outline && (t.outline? (meaning s) names).any nests

variable {r : Rule} {document : String} {edit : Edit}

theorem Made.apply_keeps {s : Shape} {t : Template} {names : List String}
    (h : Made r s t names) (hnests : fillNests s t names = true)
    (happly : r.apply document = .ok edit) :
    Keeps (signs document.toList) (signs edit.text.toList) := by
  rw [fillNests, Bool.and_eq_true, Option.any_eq_true] at hnests
  obtain ⟨hold, o, ho, hnew⟩ := hnests
  refine Rule.apply_keeps h.denotes happly fun m l hl hm => ?_
  obtain ⟨made, hmade, hfits⟩ := Template.produce_outline h.names ho hl hm
  refine ⟨made, by rw [h.produce, hmade], ?_⟩
  exact .of_wellNested (wellNested_of_nests hold hl.spells.fits)
    (wellNested_of_nests hnew hfits)

/-- The outlines of the first four rules are well nested, and those around the
subjects of an assertion and of what it is split into have these brackets. -/
theorem nests_checked :
    fillNests Old.threeImports New.threeImports [] = true ∧
    fillNests Old.twoImports New.twoImports [] = true ∧
    fillNests Old.oneUser New.oneUser ["binding", "user"] = true ∧
    fillNests Old.twoUsers New.twoUsers ["binding", "first_user",
      "first_role", "second_user", "second_role"] = true ∧
    (assertion.around? [2, 3]).map (·.map Outline.signs?) =
      some [some [.opens .round], some [.closes .round,
        .opens .round, .closes .round, .opens .round, .opens .round],
      some [.closes .round, .opens .round, .closes .round, .closes .round]] ∧
    [headOutline, middleOutline, footOutline].map Outline.signs? = [some [],
      some [.opens .round, .closes .round], some [.opens .round, .closes .round,
        .opens .round, .closes .round, .opens .round, .closes .round]] := by
  decide +kernel

/-! ## Splitting an assertion -/

theorem Slot.signs_noParen {w : List Char} (h : ∀ c ∈ w, noParen.has c = true) :
    ∀ x ∈ signs w, x.bracket ≠ .round := by
  intro x hx
  obtain ⟨c, hc, heq⟩ := List.mem_filterMap.mp hx
  have hno := h c hc
  rw [← Sign.of?_eq_some.mp heq] at hno
  cases x with
  | opens b | closes b =>
      cases b with
      | round => exact absurd hno (by decide)
      | square | curly => exact nofun

theorem Slot.shallow_star {x : Regex} {i : Nat} {b a : Option Char}
    {w : List Char} {ms : Marks} (h : Spells x i b w a ms)
    (hx : x = .star true (.alt (.one noParen) callRegex)) :
    Shallow (signs w) := by
  induction h with
  | stop => exact .nil
  | round h _ _ ih =>
      cases hx
      rw [signs_append]
      rcases spells_alt.mp h with h | h
      · obtain ⟨c, hc, rfl, -⟩ := spells_one.mp h
        refine .others (signs_noParen fun d hd => ?_) (ih rfl)
        rw [List.mem_singleton.mp hd]
        exact hc
      · obtain ⟨_, _, _, _, hopen, hrest, rfl, -⟩ := spells_seq.mp h
        obtain ⟨inner, _, _, _, hinner, hclose, rfl, -⟩ := spells_seq.mp hrest
        obtain ⟨rfl, -⟩ := spells_text.mp hopen
        obtain ⟨rfl, -⟩ := spells_text.mp hclose
        have hcall : signs (['('] ++ (inner ++ [')'])) =
            .opens .round :: (signs inner ++ [.closes .round]) := by
          rw [signs_append, signs_append]
          rfl
        rw [hcall, List.cons_append, List.append_assoc]
        exact .call (signs_noParen (spells_run.mp hinner).1) (ih rfl)
  | _ => cases hx

/-- Parentheses are one level deep in a subject. -/
theorem Slot.shallow_subject {i : Nat} {b a : Option Char} {w : List Char}
    {ms : Marks} (h : Spells subjectRegex i b w a ms) : Shallow (signs w) := by
  cases h with
  | plus h h' => exact shallow_star (.round h h') rfl

/-- Two subjects can be taken out of an assertion and put side by side. -/
theorem keeps_subjects {u v : List Sign} (hu : Shallow u) (hv : Shallow v) :
    Keeps (.opens .round :: (u ++ .closes .round :: .opens .round ::
      .closes .round :: .opens .round :: .opens .round :: (v ++
          [.closes .round, .opens .round, .closes .round, .closes .round])))
      (u ++ .opens .round :: .closes .round ::
        (v ++ [.opens .round, .closes .round, .opens .round,
        .closes .round, .opens .round, .closes .round])) := by
  refine ⟨fun b => ?_, fun s t h => ?_⟩
  · simp only [List.count_cons, List.count_append]
    cases b with
    | round =>
        simp
        omega
    | square | curly => simp
  · obtain ⟨hu, h⟩ := hu.enclosed h
    simp only [nest_opens, nest_closes, if_true] at h
    rw [← nest_opens] at h
    obtain ⟨hv, h⟩ := hv.enclosed h
    simp at h
    rw [hu.nest_append, nest_opens, nest_closes, if_pos rfl, hv.nest_append]
    simp [h]

theorem signs_woven {o₁ o₂ o₃ : Outline}
    {u v w : List Char} {xs ys zs : List Sign}
    (h : Woven [o₁, o₂, o₃] [u, v] w) (h₁ : o₁.signs? = some xs)
    (h₂ : o₂.signs? = some ys) (h₃ : o₃.signs? = some zs) :
    signs w = xs ++ (signs u ++ (ys ++ (signs v ++ zs))) := by
  cases h with
  | copy hhead h =>
      cases h with
      | copy hmiddle h =>
          cases h with
          | last hfoot =>
              simp only [signs_append, hhead.signs h₁, hmiddle.signs h₂,
                hfoot.signs h₃]

theorem split_apply_keeps (h : Splits r)
    (happly : r.apply document = .ok edit) :
    Keeps (signs document.toList) (signs edit.text.toList) := by
  obtain ⟨-, -, -, -, hold, hnew⟩ := nests_checked
  obtain ⟨os, hos, hold⟩ := Option.map_eq_some_iff.mp hold
  match os, hold with
  | [o₁, o₂, o₃], hold =>
      simp only [List.map_cons, List.map_nil, List.cons.injEq,
        and_true] at hold hnew
      refine Rule.apply_keeps h.denotes happly fun m l hl hm => ?_
      obtain ⟨u, v, made, ⟨_, _, _, _, hu⟩, ⟨_, _, _, _, hv⟩, hmade,
          hwoven, hwoven'⟩ :=
        split_woven h hos hl hm
      refine ⟨made, hmade, ?_⟩
      rw [signs_woven hwoven hold.1 hold.2.1 hold.2.2,
        signs_woven hwoven' hnew.1 hnew.2.1 hnew.2.2]
      exact keeps_subjects (Slot.shallow_subject hu) (Slot.shallow_subject hv)

/-! ## Every rule, and a whole pass -/

theorem Ruleset.apply_keeps {r₁ r₂ r₃ r₄ r₅ : Rule}
    (h : Ruleset r₁ r₂ r₃ r₄ r₅) :
    ∀ r ∈ [r₁, r₂, r₃, r₄, r₅], ∀ document edit, r.apply document = .ok edit →
      Keeps (signs document.toList) (signs edit.text.toList) := by
  obtain ⟨hthree, htwo, hone, hboth, -⟩ := nests_checked
  exact forall_mem_rules (fun _ _ => h.threeImports.apply_keeps hthree)
    (fun _ _ => h.twoImports.apply_keeps htwo) (fun _ _ =>
      h.oneUser.apply_keeps hone) (fun _ _ => h.twoUsers.apply_keeps hboth)
    (fun _ _ => split_apply_keeps h.labelOrVisible)

/-- Every rule of the migration, and so a whole pass, gives for every document
one that opens as many brackets of each kind more than it closes as the
document does, and that is well nested if the document is. -/
theorem pass_keeps_brackets : ∃ rs, Migration.rules = .ok rs ∧ ∀ document,
    (∀ r ∈ rs, ∃ edit, r.apply document = .ok edit ∧
      KeepsBrackets document edit.text) ∧
    ∃ migrated, (Rules.run rs document).2 = .ok migrated ∧
    KeepsBrackets document migrated := by
  obtain ⟨r₁, r₂, r₃, r₄, r₅, hrules, -, hset⟩ := rules_eq_ok
  refine ⟨_, hrules, fun document => ⟨fun r hr => ?_, ?_⟩⟩
  · obtain ⟨edit, happly⟩ := hset.apply_eq_ok r hr document
    exact ⟨edit, happly,
      (hset.apply_keeps r hr document edit happly).keepsBrackets⟩
  · obtain ⟨edits, migrated, hedits⟩ :=
      Rules.exists_edits hset.apply_eq_ok document
    have hkeeps : Keeps (signs document.toList) (signs migrated.toList) :=
      hedits.rel (R := fun u v => Keeps (signs u.toList) (signs v.toList))
        (fun _ => .refl _) .trans hset.apply_keeps
    exact ⟨migrated, hedits.run_eq, hkeeps.keepsBrackets⟩

end Migration

end Codemod
