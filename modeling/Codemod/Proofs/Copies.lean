import Codemod.Proofs.Occurrences

/-!
# What a replacement copies

A replacement copies the text of some groups, in the order in which they stand
in the match. So the match and its replacement are woven around the same
copies: the match from what its expression spells before, between and behind
the groups, and the replacement from what the template puts there.
`Regex.around?` and `Template.around?` work the two rows of outlines out, and
`produce_woven` says that this is what every match and its replacement look
like. With it, whether a rule can add occurrences of a word is a matter of
comparing outlines (`shedsRow`), and `Ruleset.apply_sheds` says what all rules
do to the occurrences of a word for which they were compared.
-/

namespace Codemod

open Pattern

namespace Pattern

/-- The outlines of what is spelled before, between and behind groups that
stand in a row with the rest. -/
def Regex.around? (x : Regex) : List Nat → Option (List Outline)
  | [] => some [x.outline]
  | g :: gs => do
    let parting ← x.part? g
    let os ← parting.back.around? gs
    return parting.front.outline :: os

/-- A match is woven around the texts of its groups. -/
theorem Takes.woven {text : Array Char} {x : Regex}
    {gs : List Nat} {os : List Outline} {i j : Nat}
    {ms : Marks} (h : Takes text x i j ms) (hos : x.around? gs = some os) :
    ∃ spans : List (Nat × Nat),
      List.Forall₂ (fun g s => Marked g s.1 s.2 ms) gs spans ∧
      Woven os (spans.map fun s => slice text s.1 s.2) (slice text i j) := by
  induction gs generalizing x i ms os with
  | nil =>
      cases hos
      exact ⟨[], .nil, .last h.spells.fits⟩
  | cons g gs ih =>
      rw [Regex.around?] at hos
      obtain ⟨parting, hpart, hos⟩ := Option.bind_eq_some_iff.mp hos
      obtain ⟨os, hback, hos⟩ := Option.bind_eq_some_iff.mp hos
      cases hos
      obtain ⟨p, k, l, ns, l', hfront, hbody, hrest, hmarked, l'', rfl⟩ :=
        h.part hpart
      obtain ⟨spans, hspans, hwoven⟩ := ih hrest hback
      have hbound := hrest.le
      refine ⟨(p, k) :: spans,
        .cons hmarked (hspans.imp fun _ _ hm => hm.append_left l''), ?_⟩
      rw [← slice_append hfront.le (Nat.le_trans hbody.le hbound),
        ← slice_append hbody.le hbound]
      exact .copy hfront.spells.fits hwoven

end Pattern

/-! ## The replacement -/

/-- The group that a part of a template copies. -/
def Part.copy? : Part → Option String
  | .group name => some name
  | .text _ | .optional _ _ | .role _ | .lineEnding => none

/-- The groups that a template copies, in order. -/
def Template.copies (t : Template) : List String := t.filterMap Part.copy?

/-- Outlines of a row, with one more text before them. -/
def extend (o : Outline) : List Outline → List Outline
  | [] => [o]
  | p :: ps => (o ++ p) :: ps

theorem Woven.extend {o : Outline} {os : List Outline} {cs : List (List Char)}
    {u v : List Char} (h : Woven os cs v) (hu : Fits o u) :
    Woven (Codemod.extend o os) cs (u ++ v) := by
  cases h with
  | last h => exact .last (hu.append h)
  | copy h h' =>
      rw [← List.append_assoc]
      exact .copy (hu.append h) h'

/-- The outlines of what a template puts before, between and behind its
copies. -/
def Template.around? (x : Regex) (names : List String) :
    Template → Option (List Outline)
  | [] => some [[]]
  | p :: ps => do
    let os ← Template.around? x names ps
    match p.copy? with
    | some _ => return [] :: os
    | none => return extend (← p.outline? x names) os

/-- The rows of outlines that stand around the copies in a match of `x`, and in
its replacement. -/
def Template.rows? (x : Regex) (names : List String) (t : Template) :
    Option (List Outline × List Outline) := do
  let gs ← t.copies.mapM fun name => names.findIdx? (· == name)
  return (← x.around? (gs.map (· + 1)), ← t.around? x names)

section

variable {r : Rule} {document : String} {m : Match} {x : Regex}
  {names : List String} {l : Marks}

/-- Named groups have the texts of their spans. -/
theorem Rule.groups_hit {asked : List String} {gs : List Nat}
    {spans : List (Nat × Nat)} (hnames : r.pattern.Names names) (hm : m.Has l)
    (hgs : (asked.mapM fun name => names.findIdx? (· == name)) = some gs)
    (hspans : List.Forall₂ (fun g (s : Nat × Nat) => Marked g s.1 s.2 l)
      (gs.map (· + 1)) spans) :
    List.Forall₂ (fun name c => (r.hit document m).group name =
      .ok (String.ofList c)) asked
      (spans.map fun s => slice document.toList.toArray s.1 s.2) := by
  induction asked generalizing gs spans with
  | nil =>
      cases hgs
      cases hspans
      exact .nil
  | cons name asked ih =>
      rw [List.mapM_cons] at hgs
      obtain ⟨g, hg, hgs⟩ := Option.bind_eq_some_iff.mp hgs
      obtain ⟨gs, hrest, hgs⟩ := Option.bind_eq_some_iff.mp hgs
      cases hgs
      obtain ⟨s, spans, hmarked, hothers, rfl⟩ :=
        List.forall₂_cons_left_iff.mp hspans
      refine .cons ?_ (ih hrest hothers)
      rw [Hit.group, Rule.group?_hit hnames hg,
        hm.span?_eq_some (Nat.succ_pos g) hmarked]
      rfl

theorem Template.produce_around {t : Template}
    {os : List Outline} {cs : List (List Char)}
    (hnames : r.pattern.Names names) (hos : t.around? x names = some os)
    (hcs : List.Forall₂ (fun name c => (r.hit document m).group name =
      .ok (String.ofList c)) t.copies cs)
    (ht : Takes document.toList.toArray x m.start m.stop l) (hm : m.Has l) :
    ∃ s, t.produce (r.hit document m) = .ok s ∧ Woven os cs s.toList := by
  have hparts : ∃ ss,
      List.Forall₂ (fun p s => Part.produce (r.hit document m) p = .ok s) t ss ∧
      Woven os cs (ss.map String.toList).flatten := by
    induction t generalizing os cs with
    | nil =>
        cases hos
        cases hcs
        exact ⟨[], .nil, .last .nil⟩
    | cons p ps ih =>
        rw [around?] at hos
        obtain ⟨os, hrest, hos⟩ := Option.bind_eq_some_iff.mp hos
        rw [copies, List.filterMap_cons] at hcs
        split at hos
        · next name hcopy =>
            cases hos
            simp only [hcopy] at hcs
            obtain ⟨c, cs, hc, hothers, rfl⟩ :=
              List.forall₂_cons_left_iff.mp hcs
            obtain ⟨ss, hss, hwoven⟩ := ih hrest hothers
            have hproduce : Part.produce (r.hit document m) p =
                .ok (String.ofList c) := by
              cases p with
              | group name' =>
                  cases hcopy
                  exact hc
              | text | «optional» | role | lineEnding => cases hcopy
            refine ⟨_, .cons hproduce hss, ?_⟩
            rw [List.map_cons, List.flatten_cons, String.toList_ofList]
            exact .copy .nil hwoven
        · next hcopy =>
            obtain ⟨o, ho, hos⟩ := Option.bind_eq_some_iff.mp hos
            cases hos
            simp only [hcopy] at hcs
            obtain ⟨ss, hss, hwoven⟩ := ih hrest hcs
            obtain ⟨s, hs, hfits⟩ := Part.produce_outline hnames ho ht hm
            exact ⟨_, .cons hs hss, hwoven.extend hfits⟩
  obtain ⟨ss, hss, hwoven⟩ := hparts
  obtain ⟨s, hs, hlist⟩ := Template.produce_eq_ok hss
  rw [← hlist] at hwoven
  exact ⟨s, hs, hwoven⟩

/-- A match and its replacement are woven around the same copies. -/
theorem Template.produce_woven {t : Template} {os ps : List Outline}
    (hnames : r.pattern.Names names) (hrows : t.rows? x names = some (os, ps))
    (ht : Takes document.toList.toArray x m.start m.stop l) (hm : m.Has l) :
    ∃ cs s, t.produce (r.hit document m) = .ok s ∧
      Woven os cs (m.text document.toList.toArray) ∧ Woven ps cs s.toList := by
  obtain ⟨gs, hgs, hrows⟩ := Option.bind_eq_some_iff.mp hrows
  obtain ⟨os, hos, hrows⟩ := Option.bind_eq_some_iff.mp hrows
  obtain ⟨ps, hps, hrows⟩ := Option.bind_eq_some_iff.mp hrows
  cases hrows
  obtain ⟨spans, hspans, hold⟩ := ht.woven hos
  obtain ⟨s, hs, hnew⟩ :=
    produce_around hnames hps (Rule.groups_hit hnames hm hgs hspans) ht hm
  exact ⟨_, s, hs, hold, hnew⟩

end

/-! ## Shedding occurrences -/

/-- Putting the second row of outlines for the first one sheds occurrences of
the word. -/
def shedsRow (x : List Char) (d : Nat) (os ps : List Outline) : Bool :=
  decide (d ≤ (os.map (surely x)).sum) && ps.all (fences x)

theorem sheds_of_shedsRow {x : List Char} {d : Nat} {os ps : List Outline}
    (hx : x ≠ []) (h : shedsRow x d os ps = true)
    {cs : List (List Char)} {u v : List Char} (hu : Woven os cs u)
    (hv : Woven ps cs v) : Sheds x d u v := by
  rw [shedsRow, Bool.and_eq_true, decide_eq_true_eq] at h
  exact sheds_of_woven hx hu hv h.1 h.2

namespace Migration

/-- Filling the template sheds occurrences of the word. -/
def fillSheds (x : List Char) (d : Nat) (s : Shape) (t : Template)
    (names : List String) : Bool :=
  (t.rows? (meaning s) names).any fun rows => shedsRow x d rows.1 rows.2

/-- Splitting an assertion sheds occurrences of the word. -/
def splitSheds (x : List Char) (d : Nat) : Bool :=
  (assertion.around? [2, 3]).any fun os =>
    shedsRow x d os [headOutline, middleOutline, footOutline]

variable {r : Rule} {x : List Char} {d : Nat} {document : String} {edit : Edit}

/-- A match of the assertion and what it is split into are woven around the
same two subjects. -/
theorem split_woven (h : Splits r) {os : List Outline}
    (hos : assertion.around? [2, 3] = some os) {m : Match} {l : Marks}
    (hl : Takes document.toList.toArray assertion m.start m.stop l)
    (hm : m.Has l) : ∃ u v s,
      (∃ i b a ms, Spells Slot.subjectRegex i b u a ms) ∧
      (∃ i b a ms, Spells Slot.subjectRegex i b v a ms) ∧
      r.produce (r.hit document m) = .ok s ∧
      Woven os [u, v] (m.text document.toList.toArray) ∧
      Woven [headOutline, middleOutline, footOutline] [u, v] s.toList := by
  obtain ⟨p, k, p', k', made, hparts, hmade, head, middle, foot, hlist, hhead,
      hmiddle, hfoot⟩ :=
    produce_split h hl hm
  obtain ⟨_, _ | ⟨hlabelled, _ | ⟨hvisible, _ | _⟩⟩, hold⟩ := hl.woven hos
  have hspan := (hm.span?_eq_some (by decide) hlabelled).symm.trans
    (hm.span?_eq_some (by decide) hparts.marked)
  have hspan' := (hm.span?_eq_some (by decide) hvisible).symm.trans
    (hm.span?_eq_some (by decide) hparts.marked')
  cases hspan
  cases hspan'
  obtain ⟨ls, hsubject⟩ := hparts.labelled
  obtain ⟨ls', hsubject'⟩ := hparts.visible
  refine ⟨_, _, made, ⟨_, _, _, _, hsubject.spells⟩,
    ⟨_, _, _, _, hsubject'.spells⟩, hmade, hold, ?_⟩
  rw [hlist]
  exact .copy hhead (.copy hmiddle (.last hfoot))

/-- A rule that fills a template sheds occurrences with every replacement. -/
theorem Made.apply_sheds {s : Shape} {t : Template} {names : List String}
    (h : Made r s t names)
    (hx : x ≠ []) (hsheds : fillSheds x d s t names = true)
    (happly : r.apply document = .ok edit) :
    occurrences x edit.text.toList + edit.replacements * d ≤
      occurrences x document.toList := by
  rw [fillSheds, Option.any_eq_true] at hsheds
  obtain ⟨⟨os, ps⟩, hrows, hsheds⟩ := hsheds
  refine Rule.apply_sheds h.denotes hx happly fun m l hl hm => ?_
  obtain ⟨cs, made, hmade, hold, hnew⟩ :=
    Template.produce_woven h.names hrows hl hm
  exact ⟨made, by rw [h.produce, hmade], sheds_of_shedsRow hx hsheds hold hnew⟩

/-- So does the rule that splits assertions. -/
theorem split_apply_sheds (h : Splits r) (hx : x ≠ [])
    (hsheds : splitSheds x d = true) (happly : r.apply document = .ok edit) :
    occurrences x edit.text.toList + edit.replacements * d ≤
      occurrences x document.toList := by
  rw [splitSheds, Option.any_eq_true] at hsheds
  obtain ⟨os, hos, hsheds⟩ := hsheds
  refine Rule.apply_sheds h.denotes hx happly fun m l hl hm => ?_
  obtain ⟨u, v, made, -, -, hmade, hold, hnew⟩ := split_woven h hos hl hm
  exact ⟨made, hmade, sheds_of_shedsRow hx hsheds hold hnew⟩

/-- With every replacement the first four rules shed `d` occurrences of the
word, and the last rule sheds `d'`. -/
def rulesShed (x : List Char) (d d' : Nat) : Bool :=
  !x.isEmpty && fillSheds x d Old.threeImports New.threeImports [] &&
    fillSheds x d Old.twoImports New.twoImports [] &&
    fillSheds x d Old.oneUser New.oneUser ["binding", "user"] &&
    fillSheds x d Old.twoUsers New.twoUsers
      ["binding", "first_user", "first_role", "second_user", "second_role"] &&
    splitSheds x d'

theorem Ruleset.apply_sheds {r₁ r₂ r₃ r₄ r₅ : Rule} {d' : Nat}
    (h : Ruleset r₁ r₂ r₃ r₄ r₅) (hsheds : rulesShed x d d' = true) :
    (∀ r ∈ [r₁, r₂, r₃, r₄], ∀ document edit, r.apply document = .ok edit →
      occurrences x edit.text.toList + edit.replacements * d ≤
        occurrences x document.toList) ∧
    ∀ document edit, r₅.apply document = .ok edit →
      occurrences x edit.text.toList + edit.replacements * d' ≤
        occurrences x document.toList := by
  simp only [rulesShed, Bool.and_eq_true, Bool.not_eq_true',
    List.isEmpty_eq_false_iff] at hsheds
  obtain ⟨⟨⟨⟨⟨hx, hthree⟩, htwo⟩, hone⟩, hboth⟩, hsplit⟩ := hsheds
  refine ⟨?_, fun _ _ => split_apply_sheds h.labelOrVisible hx hsplit⟩
  simp only [List.forall_mem_cons, List.not_mem_nil, false_implies,
    implies_true, and_true]
  exact ⟨fun _ _ => h.threeImports.apply_sheds hx hthree,
    fun _ _ => h.twoImports.apply_sheds hx htwo, fun _ _ =>
      h.oneUser.apply_sheds hx hone, fun _ _ => h.twoUsers.apply_sheds hx hboth⟩

end Migration

end Codemod
