import Codemod.Proofs.Anatomy
import Codemod.Proofs.Coverage
import Codemod.Proofs.Depth
import Codemod.Proofs.Residue
import Codemod.Proofs.Sharp

/-!
# Matches that overlap

A search from left to right that takes up behind each match may lose what
overlaps the match. For the rules of the migration nothing is lost: whatever
begins inside a match ends where the match ends (`EndsTogether`), so it is a
part of what is replaced. The two imports cannot overlap at all. Two
organizations can, since an identifier may hold the word that another one
begins with, but then they share all from the equals sign on. An assertion
holds parentheses only one level deep in its own, so another one has no place
there; only the indentation leaves a choice.
-/

namespace Codemod

open Pattern

/-- What begins inside of something that the expression takes ends where that
ends. -/
def EndsTogether (x : Regex) : Prop :=
  ∀ {text : Array Char} {i j s e : Nat} {l l' : Marks}, Takes text x s e l →
    Takes text x i j l' → s ≤ i → i < e → j = e

namespace Pattern

section

variable {text : Array Char} {i j q k : Nat} {l l' : Marks}
  {x y : Regex} {n : Nat}

/-- What stays apart from all ends of something does not begin inside of it. -/
theorem not_takes_within (h : endsApart n [] y.outline x.outline = true)
    (hx : Takes text x i j l)
    (hy : Takes text y q k l') (hiq : i ≤ q) (hqj : q < j) : False := by
  have hj := hx.le_size
  have hsplit : slice text i q ++ slice text q j = slice text i j :=
    slice_append hiq (by omega)
  have hfits : Fits x.outline (slice text i q ++ slice text q j) := by
    rw [hsplit]
    exact hx.spells.fits
  have hne : slice text q j ≠ [] := by
    obtain ⟨c, -, hcons⟩ := slice_eq_cons hqj hj
    rw [hcons]
    exact List.cons_ne_nil _ _
  refine ends_apart h hne hfits .nil hy.spells.fits
    (s := slice text j text.size) (t := slice text k text.size) ?_
  rw [List.nil_append, slice_append (by omega) hj,
    slice_append hy.le hy.le_size]

/-- What stays apart from all later ends of something does not begin inside of
it but at its front. -/
theorem not_takes_inside (h : tailsApart n y.outline x.outline = true)
    (hx : Takes text x i j l)
    (hy : Takes text y q k l') (hiq : i < q) (hqj : q < j) : False := by
  have hj := hx.le_size
  obtain ⟨c, hc, hcons⟩ := slice_eq_cons (show i < j by omega) hj
  have hfits := hx.spells.fits
  rw [hcons] at hfits
  have hne : slice text q j ≠ [] := by
    obtain ⟨c, -, hcons⟩ := slice_eq_cons hqj hj
    rw [hcons]
    exact List.cons_ne_nil _ _
  have hsplit : slice text (i + 1) q ++ slice text q j = slice text (i + 1) j :=
    slice_append hiq (by omega)
  have heq : slice text q j ++ ([] ++ slice text j text.size) =
      slice text q k ++ slice text k text.size := by
    rw [List.nil_append, slice_append (by omega) hj,
      slice_append hy.le hy.le_size]
  rw [← hsplit] at hfits
  generalize x.outline = o at h hfits
  cases o with
  | nil => cases h
  | cons st o =>
      cases st with
      | one rs =>
          cases hfits with
          | one _ hfits => exact ends_apart h hne hfits .nil hy.spells.fits heq
      | run rs => cases h

/-- A sharp expression that does not begin inside of what it takes. -/
theorem endsTogether_of_apart (hsharp : x.sharp anything = true)
    (h : tailsApart n x.outline x.outline = true) : EndsTogether x := by
  intro text i j s e l l' hx hy hsi hie
  rcases Nat.eq_or_lt_of_le hsi with rfl | hlt
  · exact (hy.sharp hsharp hx).1
  · exact (not_takes_inside h hx hy hlt hie).elim

end

/-- Whatever the pattern can match is covered by a match that ends with it. -/
theorem Denotes.ends_with {p : Pattern} {x : Regex}
    (hp : p.Denotes x) (hx : x.closed = true)
    (hends : EndsTogether x) {text : Array Char} {ms : List Match}
    (hms : p.Occurrences text ms) {i j : Nat} (hcan : p.CanMatch text i j) :
    ∃ m ∈ ms, m.start ≤ i ∧ m.stop = j := by
  obtain ⟨l, htakes⟩ := hp.canMatch_iff.mp hcan
  obtain ⟨m, hm, hstart, hstop⟩ := hp.covered hx hms htakes
  obtain ⟨l', htakes', -⟩ := hp.takes_of_mem hms m hm
  exact ⟨m, hm, hstart, (hends htakes' htakes hstart hstop).symm⟩

end Pattern

namespace Migration

/-! ## Organizations -/

/-- The pieces of an organization from the equals sign on. -/
def afterBinding (s : Shape) : List Piece := s.pieces.drop 2

/-- The expression of an organization up to the equals sign. -/
def binding : Regex :=
  .seq (Token.word "const".toList).regex
    (.seq blanks (.seq (.group 1 Slot.nameRegex) blanks))

/-- What is checked about an organization: it has the word and the identifier
in front, nothing that it spells begins behind the equals sign, and from there
on it is read in one way. -/
def sharesEnd (s : Shape) : Bool :=
  s.pieces.take 2 ==
    [.token (.word "const".toList), .slot "binding".toList Slot.name.toList] &&
    (Shape.regex slots 2 (afterBinding s)).outline.head?.any (isJust '=') &&
    (Shape.regex slots 2 (afterBinding s)).sharp anything &&
    endsApart steps [] (meaning s).outline
      (Shape.regex slots 2 (afterBinding s)).outline

theorem organizations_shareEnd :
    sharesEnd Old.oneUser = true ∧ sharesEnd Old.twoUsers = true ∧
    overlap binding.ranges [('='.toNat, '='.toNat)] = false := by
  decide +kernel

theorem Fits.head? {o : Outline} {w : List Char} {x : Stroke} {d : Char}
    (h : Fits o w)
    (ho : o.head? = some x) (hx : isJust d x = true) : w.head? = some d := by
  cases h with
  | nil => cases ho
  | one hc =>
      cases ho
      rw [List.head?_cons, eq_of_isJust hx hc]
  | skip | more =>
      cases ho
      cases hx

section

variable {text : Array Char} {s : Shape} {i j : Nat} {l : Marks}

/-- An organization begins with the word and the identifier, with white space
around them. -/
theorem takes_front (hs : sharesEnd s = true)
    (h : Takes text (meaning s) i j l) :
    ∃ k p q e ns l', (Token.word "const".toList).StandsAt text i k ∧
    Takes text blanks k p [] ∧
      Takes text Slot.nameRegex p q ns ∧ Takes text blanks q e [] ∧
      Takes text (Shape.regex slots 2 (afterBinding s)) e j l' ∧
      l = (2, p) :: (ns ++ (3, q) :: l') := by
  simp only [sharesEnd, Bool.and_eq_true, beq_iff_eq, Option.any_eq_true] at hs
  obtain ⟨⟨⟨hfront, ⟨st, hst, -⟩⟩, -⟩, -⟩ := hs
  have hpieces : s.pieces = .token (.word "const".toList) ::
      .slot "binding".toList Slot.name.toList :: afterBinding s := by
    rw [← List.take_append_drop 2 s.pieces, hfront]
    rfl
  have hname : slots Slot.name.toList = Slot.nameRegex := if_pos rfl
  rw [meaning, hpieces] at h
  generalize afterBinding s = ps at h hst
  cases ps with
  | nil => cases hst
  | cons piece ps =>
      obtain ⟨k, _, _, hconst, h₁, rfl⟩ := takes_seq.mp h
      obtain ⟨p, _, _, hgap, h₂, rfl⟩ := takes_seq.mp h₁
      obtain ⟨q, l₁, _, hbinding, h₃, rfl⟩ := takes_seq.mp h₂
      obtain ⟨e, _, l', hgap', hrest, rfl⟩ := takes_seq.mp h₃
      have hgroup : Takes text (.group 1 Slot.nameRegex) p q l₁ := by
        rw [← hname]
        exact hbinding
      obtain ⟨ns, hbody, rfl⟩ := takes_group.mp hgroup
      obtain ⟨hstands, rfl⟩ :=
        (takes_word (by decide) (List.all_eq_true.mp rfl)).mp hconst
      obtain ⟨-, -, -, rfl⟩ := takes_blanks.mp hgap
      obtain ⟨-, -, -, rfl⟩ := takes_blanks.mp hgap'
      exact ⟨k, p, q, e, ns, l', hstands, hgap, hbody, hgap', hrest, by simp⟩

/-- An organization is taken in two parts, and the second one begins with the
first equals sign. -/
theorem takes_binding (hs : sharesEnd s = true)
    (h : Takes text (meaning s) i j l) :
    ∃ e l', i ≤ e ∧ '=' ∉ slice text i e ∧ text[e]? = some '=' ∧
      Takes text (Shape.regex slots 2 (afterBinding s)) e j l' := by
  obtain ⟨k, p, q, e, ns, l', hstands, hgap, hbody, hgap', hrest, -⟩ :=
    takes_front hs h
  simp only [sharesEnd, Bool.and_eq_true, beq_iff_eq, Option.any_eq_true] at hs
  obtain ⟨⟨⟨-, ⟨st, hst, hjust⟩⟩, -⟩, -⟩ := hs
  have hconst :=
    (takes_word (by decide) (List.all_eq_true.mp rfl)).mpr ⟨hstands, rfl⟩
  have hall : Takes text binding i e _ :=
    takes_seq.mpr ⟨k, _, _, hconst, takes_seq.mpr ⟨p, _, _, hgap, takes_seq.mpr
      ⟨q, _, _, takes_group.mpr ⟨ns, hbody, rfl⟩, hgap', rfl⟩, rfl⟩, rfl⟩
  refine ⟨e, l', hall.le, fun hmem => ?_, ?_, hrest⟩
  · have hcovers := hall.spells.covers _ hmem
    have heq : Covers [('='.toNat, '='.toNat)] '=' :=
      ⟨_, List.mem_cons_self, Nat.le_refl _, Nat.le_refl _⟩
    cases organizations_shareEnd.2.2.symm.trans (overlap_of_covers hcovers heq)
  · have hhead := Fits.head? hrest.spells.fits hst hjust
    rw [← head?_slice_or hrest.le hrest.le_size, hhead]
    rfl

theorem endsTogether_organization (hs : sharesEnd s = true) :
    EndsTogether (meaning s) := by
  intro text i j b e l l' hx hy hbi hie
  obtain ⟨p, l₁, hbp, hno, hp, htail⟩ := takes_binding hs hx
  obtain ⟨p', l₂, hip, hno', hp', htail'⟩ := takes_binding hs hy
  simp only [sharesEnd, Bool.and_eq_true] at hs
  obtain ⟨⟨-, hsharp⟩, hapart⟩ := hs
  have hsize := htail.le_size
  have hsize' := htail'.le_size
  rcases Nat.lt_or_ge i p with hlt | hge
  · have hnot : ∀ {k x y : Nat}, '=' ∉ slice text k y → text[x]? = some '=' →
        k ≤ x → y ≤ text.size → y ≤ x :=
      fun hno hx hkx hy => Nat.le_of_not_lt fun hxy =>
        hno (mem_slice hx hkx hxy hy)
    have hpe := htail.le
    have hpe' := htail'.le
    have hle : p ≤ p' := hnot hno hp' (by omega) (by omega)
    have hle' : p' ≤ p := hnot hno' hp (by omega) (by omega)
    obtain rfl := Nat.le_antisymm hle hle'
    exact (htail'.sharp hsharp htail).1
  · exact (not_takes_within hapart htail hy hge hie).elim

end

/-- What an evaluation says of the imports: they are read in one way, and none
begins inside of another one. -/
theorem imports_checked :
    (meaning Old.threeImports).sharp anything = true ∧
    (meaning Old.twoImports).sharp anything = true ∧
    tailsApart steps (meaning Old.threeImports).outline
      (meaning Old.threeImports).outline = true ∧
    tailsApart steps (meaning Old.twoImports).outline
      (meaning Old.twoImports).outline = true := by
  decide +kernel

/-! ## Assertions -/

/-- What is checked about the tokens of an assertion: the first row does not
begin again inside of one of the three, and the first two open two
parentheses. -/
theorem tokens_checked :
    tailsApart steps (row leadTokens).outline (row leadTokens).outline = true ∧
    endsApart steps [] (row leadTokens).outline
      (row linkTokens).outline = true ∧
    endsApart steps [] (row leadTokens).outline
      (row footTokens).outline = true ∧
    level 0 (leadTokens.flatMap Token.text) = some 1 ∧
    level 1 (linkTokens.flatMap Token.text) = some 2 := by
  decide +kernel

section

variable {text : Array Char} {i j s e q a b a' b' : Nat} {l : Marks}

theorem level_stands (h : Stands text q a b a' b' j) (hab : Enclosed text a b) :
    level 0 (slice text q a') = some 2 := by
  obtain ⟨-, -, -, hlead, hlink⟩ := tokens_checked
  obtain ⟨hqa, hle, hba, -⟩ := h.bounds
  have hflat : level 1 (slice text a b) = some 1 := level_add hab.flat.level 1
  rw [← slice_append hqa (show a ≤ a' by omega), ← slice_append hle hba,
    level_append, level_written h.lead, hlead, Option.bind_some, level_append,
    hflat, Option.bind_some, level_written h.link, hlink]

/-- No assertion begins in the parentheses of another one. The parenthesis
behind would be closed before the two are opened, or the two would be too
deep. -/
theorem not_stands_enclosed {x y : Nat} (hxy : Enclosed text x y)
    (hy : text[y]? = some ')') (h : Stands text q a b a' b' j)
    (hab : Enclosed text a b) (hxq : x ≤ q) (hqy : q < y) : False := by
  have hlevel := level_stands h hab
  have hbounds := h.bounds
  have hqa' : q ≤ a' := by omega
  have hflat := hxy.flat
  obtain ⟨hbound, -⟩ := Array.getElem?_eq_some_iff.mp hy
  obtain ⟨depth, hle, hfront, hback⟩ :=
    hflat _ _ (slice_append hxq (Nat.le_of_lt hqy)).symm
  have hinner : level depth (slice text q a') = some (depth + 2) :=
    level_add hlevel depth
  rcases Nat.lt_or_ge y a' with hlt | hge
  · obtain ⟨c, hc, hcons⟩ := slice_eq_cons hlt (show a' ≤ text.size by omega)
    cases hc.symm.trans hy
    rw [← slice_append (Nat.le_of_lt hqy) (Nat.le_of_lt hlt), hcons,
      level_append, hback, Option.bind_some, level_close_zero] at hinner
    cases hinner
  · obtain ⟨depth', hle', hfront', -⟩ :=
      hflat _ _ (slice_append (show x ≤ a' by omega) hge).symm
    rw [← slice_append hxq hqa', level_append, hfront, Option.bind_some,
      hinner] at hfront'
    cases hfront'
    omega

/-- An assertion that begins inside of another one ends with it. It would begin
in one of the five parts of the other one: tokens keep it out, and in
parentheses there is no room for the two levels that it has. -/
theorem endsTogether_assertion : EndsTogether assertion := by
  intro text i j s e l l' hx hy hsi hie
  obtain ⟨q, a, b, a', b', hstands, hab, hab', hindent⟩ := takes_parts hx
  obtain ⟨q₁, a₁, b₁, a₁', b₁', hstands₁, hab₁, -, hindent₁⟩ := takes_parts hy
  obtain ⟨hinside, hlink, hfoot, -⟩ := tokens_checked
  have hbounds := hstands.bounds
  have hbounds₁ := hstands₁.bounds
  have hlead₁ := takes_lead.mpr ⟨hstands₁.lead, rfl⟩
  have hplain : ∀ {i q k : Nat} {c : Char}, Indents text i q ∨ q = i →
      text[k]? = some c →
      q ≤ text.size → Piece.blankSet.has c = false → i ≤ k → q ≤ k := by
    rintro i q k c (hindents | rfl) hk hsize hc hik
    · refine Nat.le_of_not_lt fun hkq => ?_
      cases hc.symm.trans (hindents.blank c (mem_slice hk hik hkq hsize))
    · exact hik
  obtain ⟨hqe, hlast⟩ := hstands.last
  have hawait : text[q₁]? = some 'a' :=
    hstands₁.lead.head parts_checked.2.2.2.2.1 rfl
  have hiq₁ : i ≤ q₁ :=
    hindent₁.elim Indents.le fun heq => Nat.le_of_eq heq.symm
  have hle : q ≤ q₁ := hplain hindent hawait (by omega) (by decide) (by omega)
  have hlt : q₁ < e := by
    have hle' : q₁ ≤ e - 1 :=
      hplain hindent₁ hlast (by omega) (by decide) (by omega)
    omega
  rcases Nat.eq_or_lt_of_le hle with rfl | hlater
  · exact (hstands₁.unique hstands).2.2.2.2
  · exfalso
    have hcloses : text[b]? = some ')' :=
      hstands.link.head parts_checked.2.2.1 rfl
    have hcloses' : text[b']? = some ')' :=
      hstands.foot.head parts_checked.2.2.2.1 rfl
    rcases Nat.lt_or_ge q₁ a with hqa | haq
    · exact not_takes_inside hinside
        (takes_lead.mpr ⟨hstands.lead, rfl⟩) hlead₁ hlater hqa
    rcases Nat.lt_or_ge q₁ b with hqb | hbq
    · exact not_stands_enclosed hab hcloses hstands₁ hab₁ haq hqb
    rcases Nat.lt_or_ge q₁ a' with hqa | haq
    · exact not_takes_within hlink
        (takes_link.mpr ⟨hstands.link, rfl⟩) hlead₁ hbq hqa
    rcases Nat.lt_or_ge q₁ b' with hqb | hbq
    · exact not_stands_enclosed hab' hcloses' hstands₁ hab₁ haq hqb
    · exact not_takes_within hfoot
        (takes_foot.mpr ⟨hstands.foot, rfl⟩) hlead₁ hbq hlt

end

/-! ## The rules -/

theorem Ruleset.endsTogether {r₁ r₂ r₃ r₄ r₅ : Rule}
    (h : Ruleset r₁ r₂ r₃ r₄ r₅) :
    ∀ r ∈ [r₁, r₂, r₃, r₄, r₅], ∃ x, r.pattern.Denotes x ∧ x.closed = true ∧
    EndsTogether x := by
  obtain ⟨hsharp₁, hsharp₂, hapart₁, hapart₂⟩ := imports_checked
  obtain ⟨hone, htwo, -⟩ := organizations_shareEnd
  have hclosed : ∀ {s : Shape}, tidy (meaning s) = true →
      (meaning s).closed = true :=
    fun hs => (tidy_iff.mp hs).1.2
  exact forall_mem_rules
    ⟨_, h.threeImports.denotes, hclosed h.threeImports.tidy,
      endsTogether_of_apart hsharp₁ hapart₁⟩
    ⟨_, h.twoImports.denotes, hclosed h.twoImports.tidy,
      endsTogether_of_apart hsharp₂ hapart₂⟩
    ⟨_, h.oneUser.denotes, hclosed h.oneUser.tidy,
      endsTogether_organization hone⟩
    ⟨_, h.twoUsers.denotes, hclosed h.twoUsers.tidy,
      endsTogether_organization htwo⟩
    ⟨_, h.labelOrVisible.denotes, assertion_checked.2.1, endsTogether_assertion⟩

/-- No occurrence is lost: whatever the pattern of a rule can match in a
document, on any way, the rule replaces a part that covers it and ends with
it. -/
theorem rules_skip_nothing : ∃ rules, Migration.rules = .ok rules ∧
    rules.map Rule.name = ["consolidate-imports",
      "consolidate-imports-fallback", "single-user-organization",
      "multi-user-organization", "aria-label-or-visible"] ∧
    ∀ r ∈ rules, ∀ document : String, ∃ ms rs,
      r.pattern.Occurrences document.toList.toArray ms ∧
      List.Forall₂ (fun m s => r.produce (r.hit document m) = .ok s) ms rs ∧
      r.apply document = .ok ⟨String.ofList
        (weave (gaps document.toList.toArray 0 ms) (rs.map String.toList)),
        ms.length⟩ ∧
      ∀ i j, r.pattern.CanMatch document.toList.toArray i j →
        ∃ m ∈ ms, m.start ≤ i ∧ m.stop = j := by
  obtain ⟨r₁, r₂, r₃, r₄, r₅, hrules, hnames, hset⟩ := rules_eq_ok
  refine ⟨_, hrules, hnames, fun r hr document => ?_⟩
  obtain ⟨x, hx, hclosed, hends⟩ := hset.endsTogether r hr
  obtain ⟨edit, happly⟩ := hset.apply_eq_ok r hr document
  have hocc : r.pattern.Occurrences document.toList.toArray _ :=
    (allMatches_iff hx.whole).mpr rfl
  obtain ⟨rs, hrs, rfl⟩ := Rule.weave_of_apply happly
  exact ⟨_, rs, hocc, hrs, happly,
    fun i j hcan => hx.ends_with hclosed hends hocc hcan⟩

/-- An assertion that starts its line. -/
def indented : String :=
  "\tawait expect(a).toHaveAttribute('aria-label').or(expect(b).toBeVisible())"

/-- The pattern of the last rule can match the assertion with the tab in front
of it and without. -/
theorem indented_taken : assertion.allTaken 0 none indented.toList =
    [(0, 74, [(2, 0), (3, 1), (4, 14), (5, 15), (6, 57), (7, 58)]),
      (1, 74, [(4, 14), (5, 15), (6, 57), (7, 58)])] := by
  decide +kernel

/-- Of the two ways to match the one that begins with the line is replaced,
which covers the other. -/
theorem rules_skip_nothing_indented :
    ∃ rules r ms edit, Migration.rules = .ok rules ∧ r ∈ rules ∧
    r.pattern.Occurrences indented.toList.toArray ms ∧
    r.pattern.CanMatch indented.toList.toArray 0 74 ∧
    r.pattern.CanMatch indented.toList.toArray 1 74 ∧
    (∃ m ∈ ms, m.start = 0 ∧ m.stop = 74) ∧
    r.apply indented = .ok edit ∧ 0 < edit.replacements := by
  obtain ⟨rules, hrules, -, hall⟩ := rules_skip_nothing
  obtain ⟨r₁, r₂, r₃, r₄, r₅, hrules', -, hset⟩ := rules_eq_ok
  cases hrules.symm.trans hrules'
  have hr : r₅ ∈ [r₁, r₂, r₃, r₄, r₅] := by simp
  obtain ⟨-, -, hsolid, -⟩ := assertion_checked
  have hcan : ∀ x ∈ assertion.allTaken 0 none indented.toList,
      r₅.pattern.CanMatch indented.toList.toArray x.1 x.2.1 := fun x hx =>
    hset.labelOrVisible.denotes.canMatch_iff.mpr
      ⟨x.2.2, (mem_allTaken_iff hsolid).mp hx⟩
  rw [indented_taken] at hcan
  have hcan₀ := hcan _ List.mem_cons_self
  have hcan₁ := hcan _ (List.mem_cons_of_mem _ List.mem_cons_self)
  obtain ⟨ms, rs, hocc, -, happly, hcover⟩ := hall r₅ hr indented
  obtain ⟨m, hm, hstart, hstop⟩ := hcover 0 74 hcan₀
  exact ⟨_, r₅, ms, _, hrules', hr, hocc, hcan₀, hcan₁,
    ⟨m, hm, by omega, hstop⟩, happly, List.length_pos_of_mem hm⟩

end Migration

end Codemod
