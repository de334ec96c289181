import Codemod.Proofs.Rewrite
import Codemod.Rule.Template

/-!
# What templates produce

A template is filled with what a match has captured. Whether that can be done,
and what the result looks like, follows from the expression of the pattern: a
group that stands in a row with the rest is there in every match, and its text
has the outline of its body. `Template.outline?` works the outline of a
replacement out, and `produce_outline` says that every match gets a replacement
of this outline.
-/

namespace Codemod

open Pattern

/-- The texts of the parts of a template, put together. -/
theorem Template.produce_eq_ok {h : Hit} {ps : Template} {ss : List String}
    (hparts : List.Forall₂ (fun p s => Part.produce h p = .ok s) ps ss) :
    ∃ s, Template.produce ps h = .ok s ∧
    s.toList = (ss.map String.toList).flatten := by
  induction hparts with
  | nil => exact ⟨"", rfl, rfl⟩
  | @cons p s ps ss hp _ ih =>
      obtain ⟨t, ht, hlist⟩ := ih
      refine ⟨s ++ t, ?_, ?_⟩
      · rw [produce, hp]
        show (Template.produce ps h >>= _) = _
        rw [ht]
        rfl
      · rw [String.toList_append, hlist]
        rfl

namespace Pattern

/-- The names of the groups of a pattern, from group 1 on. -/
def Names (p : Pattern) (names : List String) : Prop :=
  p.groupNames = none :: names.map some

theorem Names.groupIndex? {p : Pattern} {names : List String}
    (h : p.Names names) (name : String) :
    p.groupIndex? name = (names.findIdx? (· == name)).map (· + 1) := by
  rw [Pattern.groupIndex?, h, List.findIdx?_cons, List.findIdx?_map]
  rfl

end Pattern

namespace Rule

variable {r : Rule} {document : String} {m : Match} {x : Regex}
  {names : List String} {l : Marks}

/-- A named group has the text of its span. -/
theorem group?_hit {g : Nat} {name : String} (hnames : r.pattern.Names names)
    (hg : names.findIdx? (· == name) = some g) :
    (r.hit document m).group? name = (m.span? (g + 1)).map fun x =>
      String.ofList (slice document.toList.toArray x.1 x.2) := by
  have hindex : r.pattern.groupIndex? name = some (g + 1) := by
    rw [hnames.groupIndex?, hg]
    rfl
  rw [Hit.group?]
  show (r.pattern.groupIndex? name).bind _ = _
  rw [hindex]
  show (m.span? (g + 1)).bind _ = _
  cases m.span? (g + 1) <;> rfl

/-- The body of a named group, if the group stands in a row with the rest. -/
def body? (x : Regex) (names : List String) (name : String) : Option Regex := do
  let g ← names.findIdx? (· == name)
  let parting ← x.part? (g + 1)
  return parting.body

/-- A named group that stands in a row with the rest has a text, which its body
spells. -/
theorem group_hit {name : String} {y : Regex} (hnames : r.pattern.Names names)
    (hy : body? x names name = some y)
    (ht : Takes document.toList.toArray x m.start m.stop l) (hm : m.Has l) :
    ∃ p k ns, Takes document.toList.toArray y p k ns ∧
      (r.hit document m).group name =
        .ok (String.ofList (slice document.toList.toArray p k)) := by
  rw [body?] at hy
  obtain ⟨g, hg, hy⟩ := Option.bind_eq_some_iff.mp hy
  obtain ⟨parting, hpart, hy⟩ := Option.bind_eq_some_iff.mp hy
  cases hy
  obtain ⟨p, k, -, ns, -, -, hbody, -, hmarked, -⟩ := ht.part hpart
  refine ⟨p, k, ns, hbody, ?_⟩
  rw [Hit.group, group?_hit hnames hg,
    hm.span?_eq_some (Nat.succ_pos g) hmarked]
  rfl

end Rule

namespace Pattern

/-- The text that an expression spells, if it is always the same. -/
def Regex.fixed? : Regex → Option (List Char)
  | .empty => some []
  | .one s => s.single?.map ([·])
  | .seq r s => do return (← r.fixed?) ++ (← s.fixed?)
  | _ => none

theorem CharSet.eq_of_single? {s : CharSet} {c d : Char}
    (h : s.single? = some c) (hd : s.has d = true) : d = c := by
  rw [single?] at h
  split at h
  · next lo hi hs =>
      split at h
      · next heq =>
          cases h
          subst heq
          rw [has, hs] at hd
          simp only [Text.Ranges.has, Bool.or_false, Bool.and_eq_true,
            decide_eq_true_eq] at hd
          have : lo = d.toNat := by omega
          rw [this, Char.ofNat_toNat]
      · cases h
  · cases h

theorem Spells.fixed {r : Regex} {i : Nat}
    {b a : Option Char} {w cs : List Char} {ms : Marks}
    (h : Spells r i b w a ms) (hr : r.fixed? = some cs) : w = cs := by
  induction h generalizing cs with
  | empty =>
      cases hr
      rfl
  | one hs =>
      obtain ⟨c, hc, rfl⟩ := Option.map_eq_some_iff.mp hr
      rw [CharSet.eq_of_single? hc hs]
  | seq _ _ ih ih' =>
      obtain ⟨u, hu, hr⟩ := Option.bind_eq_some_iff.mp hr
      obtain ⟨v, hv, hr⟩ := Option.bind_eq_some_iff.mp hr
      cases hr
      rw [ih hu, ih' hv]
  | look | group | altLeft | altRight | stop | round | plus => cases hr

end Pattern

/-- The outline of a line ending. -/
def lineEndingOutline : Outline := [.run [(0xa, 0xa), (0xd, 0xd)]]

theorem fits_lineEnding (e : LineEnding) :
    Fits lineEndingOutline e.text.toList := by
  refine fits_run fun c hc => ?_
  have hcases : c = '\r' ∨ c = '\n' := by
    cases e with
    | lf => exact .inr (List.mem_singleton.mp hc)
    | crlf =>
        rcases List.mem_cons.mp hc with rfl | hc
        · exact .inl rfl
        · exact .inr (List.mem_singleton.mp hc)
  rcases hcases with rfl | rfl
  · exact ⟨(0xd, 0xd), by simp, by decide, by decide⟩
  · exact ⟨(0xa, 0xa), by simp, by decide, by decide⟩

/-- The outline of a part, if it can always be filled. -/
def Part.outline? (x : Regex) (names : List String) : Part → Option Outline
  | .text s => some (.ofText s.toList)
  | .group name => (Rule.body? x names name).map Regex.outline
  | .role name => do
    let cs ← (← Rule.body? x names name).fixed?
    return .ofText (bareRole cs)
  | .lineEnding => some lineEndingOutline
  | .optional _ _ => none

/-- The outline of a template, if all its parts can always be filled. -/
def Template.outline? (x : Regex) (names : List String) (t : Template) :
    Option Outline := do
  return (← t.mapM (Part.outline? x names)).flatten

variable {r : Rule} {document : String} {m : Match} {x : Regex}
  {names : List String} {l : Marks}

theorem Part.produce_outline {p : Part} {o : Outline}
    (hnames : r.pattern.Names names) (ho : p.outline? x names = some o)
    (ht : Takes document.toList.toArray x m.start m.stop l) (hm : m.Has l) :
    ∃ s, p.produce (r.hit document m) = .ok s ∧ Fits o s.toList := by
  cases p with
  | text s =>
      cases ho
      exact ⟨s, rfl, fits_ofText _⟩
  | group name =>
      obtain ⟨y, hy, rfl⟩ := Option.map_eq_some_iff.mp ho
      obtain ⟨p, k, ns, hbody, hgroup⟩ := Rule.group_hit hnames hy ht hm
      refine ⟨_, hgroup, ?_⟩
      rw [String.toList_ofList]
      exact hbody.spells.fits
  | «optional» name fallback => cases ho
  | role name =>
      obtain ⟨y, hy, ho⟩ := Option.bind_eq_some_iff.mp ho
      obtain ⟨cs, hcs, ho⟩ := Option.bind_eq_some_iff.mp ho
      cases ho
      obtain ⟨p, k, ns, hbody, hgroup⟩ := Rule.group_hit hnames hy ht hm
      refine ⟨_, by rw [Part.produce, hgroup]; rfl, ?_⟩
      rw [String.toList_ofList, String.toList_ofList, hbody.spells.fixed hcs]
      exact fits_ofText _
  | lineEnding =>
      cases ho
      exact ⟨_, rfl, fits_lineEnding _⟩

/-- A template that can always be filled gives every match a replacement of its
outline. -/
theorem Template.produce_outline {t : Template} {o : Outline}
    (hnames : r.pattern.Names names) (ho : t.outline? x names = some o)
    (ht : Takes document.toList.toArray x m.start m.stop l) (hm : m.Has l) :
    ∃ s, t.produce (r.hit document m) = .ok s ∧ Fits o s.toList := by
  obtain ⟨os, hos, heq⟩ := Option.bind_eq_some_iff.mp ho
  cases heq
  clear ho
  have hparts : ∃ ss,
      List.Forall₂ (fun p s => Part.produce (r.hit document m) p = .ok s) t ss ∧
      Fits os.flatten (ss.map String.toList).flatten := by
    induction t generalizing os with
    | nil =>
        cases hos
        exact ⟨[], .nil, .nil⟩
    | cons p ps ih =>
        rw [List.mapM_cons] at hos
        obtain ⟨o, ho, hos⟩ := Option.bind_eq_some_iff.mp hos
        obtain ⟨os, hps, hos⟩ := Option.bind_eq_some_iff.mp hos
        cases hos
        obtain ⟨s, hs, hfits⟩ := Part.produce_outline hnames ho ht hm
        obtain ⟨ss, hss, hrest⟩ := ih os hps
        exact ⟨s :: ss, .cons hs hss, hfits.append hrest⟩
  obtain ⟨ss, hss, hfits⟩ := hparts
  obtain ⟨s, hs, hlist⟩ := Template.produce_eq_ok hss
  rw [← hlist] at hfits
  exact ⟨s, hs, hfits⟩

/-- How far two outlines are compared. -/
def steps : Nat := 3000

/-- The replacements that a template makes for matches of `x` can be put into a
text without making anything that `q` spells. -/
def Template.keepsOut (x : Regex) (names : List String) (q : Outline)
    (t : Template) : Bool :=
  match t.outline? x names with
  | some o => o.endsPlain && tailsApart steps o q && endsApart steps [] q o
  | none => false

theorem Template.produce_patch {t : Template} {q : Regex}
    (hnames : r.pattern.Names names) (hq : t.keepsOut x names q.outline = true)
    (ht : Takes document.toList.toArray x m.start m.stop l) (hm : m.Has l) :
    ∃ s, t.produce (r.hit document m) = .ok s ∧ Patch q s.toList := by
  rw [keepsOut] at hq
  split at hq
  · next o ho =>
      rw [Bool.and_eq_true, Bool.and_eq_true] at hq
      obtain ⟨s, hs, hfits⟩ := produce_outline hnames ho ht hm
      exact ⟨s, hs, patch_of_outline hq.1.1 hq.1.2 hq.2 hfits⟩
  · cases hq

end Codemod
