import Codemod.Proofs.Enumerate
import Codemod.Proofs.Organizations
import Codemod.Proofs.Overlap

/-!
# The word that an organization begins with

The statements that create an organization begin with the word `const` and an
identifier. Of the word the pattern asks that no word character stands next to
it, and of the identifier that it begins with a letter, an underscore or a
dollar sign. A dollar sign is no word character, so the two notions differ by
it: the word need not be an identifier of its own. It is one exactly if no
dollar sign stands before it and some white space stands behind it, for without
white space the identifier can begin with nothing but a dollar sign.
-/

namespace Codemod.Migration

open Pattern

namespace Slot

theorem beginsName_of_has {c : Char} (h : nameStart.has c = true) :
    beginsName c = true := by
  rw [CharSet.has, nameStart] at h
  simp only [Text.Ranges.has, Bool.and_eq_true, Bool.or_eq_true,
    decide_eq_true_eq, Bool.or_false] at h
  have heq : ∀ d : Char, c.toNat = d.toNat → c = d := fun d hd => by
    rw [← Char.ofNat_toNat c, hd, Char.ofNat_toNat]
  have hcases : (65 ≤ c.toNat ∧ c.toNat ≤ 90) ∨ (97 ≤ c.toNat ∧ c.toNat ≤ 122) ∨
      c.toNat = '_'.toNat ∨ c.toNat = '$'.toNat := by
    have hunder : '_'.toNat = 95 := rfl
    have hdollar : '$'.toNat = 36 := rfl
    omega
  delta beginsName Char.isAlpha Char.isUpper Char.isLower
  simp only [Bool.or_eq_true, Bool.and_eq_true, decide_eq_true_eq, beq_iff_eq]
  rcases hcases with hupper | hlower | hunder | hdollar
  · exact .inl (.inl (.inl hupper))
  · exact .inl (.inl (.inr hlower))
  · exact .inl (.inr (heq _ hunder))
  · exact .inr (heq _ hdollar)

theorem continuesName_of_has {c : Char} (h : nameRest.has c = true) :
    continuesName c = true := by
  rw [CharSet.has, nameRest_ranges] at h
  simp only [Text.Ranges.has, Bool.and_eq_true, Bool.or_eq_true,
    decide_eq_true_eq] at h
  rw [continuesName, Bool.or_eq_true, beq_iff_eq]
  rcases h with ⟨hlo, hhi | hword⟩
  · have heq : c.toNat = '$'.toNat := Nat.le_antisymm hhi hlo
    exact .inr (by rw [← Char.ofNat_toNat c, heq]; rfl)
  · exact .inl hword

/-- What the pattern of an identifier takes is one. -/
theorem isName_of_spells {i : Nat} {b a : Option Char} {w : List Char}
    {l : Marks} (h : Spells nameRegex i b w a l) : IsName w := by
  obtain ⟨u, v, ms, ns, hfirst, hrest, rfl, -⟩ := spells_seq.mp h
  obtain ⟨hall, -⟩ := spells_run.mp hrest
  cases hfirst with
  | one hc =>
      exact ⟨_, v, rfl, beginsName_of_has hc,
        fun d hd => continuesName_of_has (hall d hd)⟩

end Slot

/-- What stands between two places is an identifier of its own: its neighbours
do not go on with it. -/
def Alone (text : Array Char) (i j : Nat) : Prop :=
  (∀ c ∈ before? text i, Slot.continuesName c = false) ∧
    ∀ c ∈ text[j]?, Slot.continuesName c = false

/-- A declaration as the patterns see it: the word, white space up to `p`, and
a name. -/
structure Declares (text : Array Char) (i p : Nat) (name : List Char) :
    Prop where
  le : i + 5 ≤ p
  word_eq : slice text i (i + 5) = "const".toList
  before : Anchor.isWord? (before? text i) = false
  after : Anchor.isWord? text[i + 5]? = false
  white : ∀ c ∈ slice text (i + 5) p, Text.isWhite c = true
  isName : Slot.IsName name
  name_eq : slice text p (p + name.length) = name

variable {text : Array Char} {i j p : Nat} {name : List Char}

theorem continuesName_eq_false {c : Option Char}
    (hc : Anchor.isWord? c = false) :
    (∀ d ∈ c, Slot.continuesName d = false) ↔ c ≠ some '$' := by
  cases c with
  | none => simp
  | some d =>
      have hd : Text.isWord d = false := hc
      simp [Slot.continuesName, hd]

theorem Slot.eq_dollar {c : Char} (hc : beginsName c = true)
    (hword : Text.isWord c = false) :
    c = '$' := by
  simp only [beginsName, Bool.or_eq_true, beq_iff_eq] at hc
  rcases hc with hletter | hdollar
  · have hascii : Text.isAsciiWord c = true := by
      simp only [Text.isAsciiWord, Char.isAlphanum, Bool.or_eq_true, beq_iff_eq]
      exact hletter.imp .inl id
    rw [Token.isWord_of_isAsciiWord hascii] at hword
    cases hword
  · exact hdollar

theorem Declares.le_size (h : Declares text i p name) :
    p + name.length ≤ text.size := by
  obtain ⟨c, cs, hname, -⟩ := h.isName
  have hlen := congrArg List.length h.name_eq
  have hpos : 0 < name.length := by simp [hname]
  rw [slice, Array.length_toList, Array.size_extract] at hlen
  omega

/-- Where no white space stands behind the word, the name begins with a dollar
sign. -/
theorem Declares.next_eq (h : Declares text i p name) :
    text[i + 5]? = some '$' ↔ p = i + 5 := by
  have hsize := h.le_size
  obtain ⟨c, cs, hname, hc, -⟩ := h.isName
  rcases Nat.eq_or_lt_of_le h.le with heq | hlt
  · refine iff_of_true ?_ heq.symm
    have hhead := head?_slice_or (Nat.le_add_right p name.length) hsize
    rw [h.name_eq, hname, List.head?_cons, Option.some_or, ← heq] at hhead
    have hafter := h.after
    rw [← hhead] at hafter ⊢
    rw [Slot.eq_dollar hc hafter]
  · refine iff_of_false (fun hdollar => ?_) (by omega)
    have hwhite :=
      h.white '$' (mem_slice hdollar (Nat.le_refl _) hlt (by omega))
    cases hwhite

theorem Declares.alone_iff (h : Declares text i p name) :
    Alone text i (i + 5) ↔ before? text i ≠ some '$' ∧ i + 5 < p := by
  have hle := h.le
  rw [Alone, continuesName_eq_false h.before, continuesName_eq_false h.after,
    ne_eq text[i + 5]?, h.next_eq]
  exact and_congr_right fun _ => by omega

/-- What an organization begins with is a declaration, and the first group
holds its name. -/
theorem declares_of_takes {s : Shape} {l : Marks} (hs : sharesEnd s = true)
    (hgroups : (Shape.regex slots 2 (afterBinding s)).mentions 1 = false)
    (h : Takes text (meaning s) i j l) :
    ∃ p q, Marked 1 p q l ∧ p ≤ q ∧ q ≤ j ∧
    Declares text i p (slice text p q) := by
  obtain ⟨k, p, q, e, ns, l', hconst, hgap, hname, hgap', hrest, rfl⟩ :=
    takes_front hs h
  have hlen := length_slice hconst.le hconst.le_size
  rw [hconst.text_eq] at hlen
  obtain rfl : k = i + 5 := by
    have hword : (Token.word "const".toList).text.length = 5 := rfl
    have hle := hconst.le
    omega
  obtain ⟨hle, -, hwhite, -⟩ := takes_blanks.mp hgap
  obtain ⟨hbefore, hafter⟩ := hconst.alone _ rfl
  have hpq := hname.le
  have hqe := hgap'.le
  have hej := hrest.le
  refine ⟨p, q, ⟨[], ns, l', rfl, ?_,
      hrest.spells.marks_of_not_mentions hgroups⟩, hpq, by omega, ?_⟩
  · exact hname.spells.marks_of_not_mentions (by decide)
  · refine ⟨hle, hconst.text_eq, hbefore, hafter, hwhite,
      Slot.isName_of_spells hname.spells, ?_⟩
    rw [length_slice hpq hname.le_size, Nat.add_sub_cancel' hpq]

theorem organizations_mention :
    (Shape.regex slots 2 (afterBinding Old.oneUser)).mentions 1 = false ∧
    (Shape.regex slots 2 (afterBinding Old.twoUsers)).mentions 1 = false := by
  decide +kernel

/-- A match of a rule that looks for an organization. -/
theorem Careful.declares {r : Rule} {s : Shape}
    {t : Template} {names : List String} {qs : List Shape}
    (h : Careful r s t ("binding" :: names) qs) (hs : sharesEnd s = true)
    (hgroups : (Shape.regex slots 2 (afterBinding s)).mentions 1 = false)
    {document : String}
    {ms : List Match} (hms : r.pattern.Occurrences document.toList.toArray ms) :
    ∀ m ∈ ms, ∃ p name, (r.hit document m).group "binding" = .ok name ∧
      p + name.toList.length ≤ m.stop ∧
      Declares document.toList.toArray m.start p name.toList := by
  intro m hm
  obtain ⟨l, htakes, hhas⟩ := h.denotes.takes_of_mem hms m hm
  obtain ⟨p, q, hmarked, hpq, hqj, hdeclares⟩ :=
    declares_of_takes hs hgroups htakes
  have hlen := length_slice hpq (Nat.le_trans hqj htakes.le_size)
  refine ⟨p, String.ofList (slice document.toList.toArray p q), ?_, ?_, ?_⟩
  · rw [Hit.group, Rule.group?_hit (g := 0) h.names rfl,
      hhas.span?_eq_some Nat.one_pos hmarked]
    rfl
  · rw [String.toList_ofList]
    omega
  · rw [String.toList_ofList]
    exact hdeclares

/-- What the two rules for organizations replace begins with a declaration. Its
word is an identifier of its own exactly if no dollar sign stands before it and
some white space behind it. -/
theorem organizations_declare (document : String) :
    ∃ rules, Migration.rules = .ok rules ∧
    rules.map Rule.name = ["consolidate-imports",
      "consolidate-imports-fallback", "single-user-organization",
      "multi-user-organization", "aria-label-or-visible"] ∧
    ∀ r ∈ (rules.drop 2).take 2, ∃ ms rs,
      r.pattern.Occurrences document.toList.toArray ms ∧
      List.Forall₂ (fun m s => r.produce (r.hit document m) = .ok s) ms rs ∧
      r.apply document = .ok ⟨String.ofList
        (weave (gaps document.toList.toArray 0 ms) (rs.map String.toList)),
        ms.length⟩ ∧
      ∀ m ∈ ms, ∃ p name, (r.hit document m).group "binding" = .ok name ∧
        p + name.toList.length ≤ m.stop ∧
        Declares document.toList.toArray m.start p name.toList ∧
        (Alone document.toList.toArray m.start (m.start + 5) ↔
          before? document.toList.toArray m.start ≠ some '$' ∧
          m.start + 5 < p) := by
  obtain ⟨r₁, r₂, r₃, r₄, r₅, hrules, hnames, hset⟩ := rules_eq_ok
  obtain ⟨hone, htwo, -⟩ := organizations_shareEnd
  obtain ⟨hone', htwo'⟩ := organizations_mention
  refine ⟨_, hrules, hnames, fun r hr => ?_⟩
  have hmem : r ∈ [r₁, r₂, r₃, r₄, r₅] :=
    List.mem_of_mem_drop (List.mem_of_mem_take hr)
  obtain ⟨edit, happly⟩ := hset.apply_eq_ok r hmem document
  obtain ⟨x, hx, -⟩ := hset.endsTogether r hmem
  have hocc : r.pattern.Occurrences document.toList.toArray _ :=
    (allMatches_iff hx.whole).mpr rfl
  obtain ⟨rs, hrs, rfl⟩ := Rule.weave_of_apply happly
  refine ⟨_, rs, hocc, hrs, happly, fun m hm => ?_⟩
  have hdeclares : ∃ p name, (r.hit document m).group "binding" = .ok name ∧
      p + name.toList.length ≤ m.stop ∧
      Declares document.toList.toArray m.start p name.toList := by
    rcases List.mem_pair.mp hr with rfl | rfl
    · exact hset.oneUser.declares hone hone' hocc m hm
    · exact hset.twoUsers.declares htwo htwo' hocc m hm
  obtain ⟨p, name, hgroup, hle, hdeclares⟩ := hdeclares
  exact ⟨p, name, hgroup, hle, hdeclares, hdeclares.alone_iff⟩

/-- The creation of an organization, with a name that stands right behind the
word. -/
def gluedName : String :=
  "const$org = await prisma.organization.create(\x7b data: \x7b name: faker.company.name(),"
    ++ " slug: faker.helpers.slugify(faker.company.name()).toLowerCase(),"
    ++ " description: faker.company.catchPhrase(),"
    ++ " users: \x7b create: \x7b userId: user.id, organizationRoleId: 'org_role_admin' \x7d \x7d"
    ++ " \x7d \x7d)"

/-- What the pattern finds there, with the places of the name and of the
user. -/
def gluedMatch : Match :=
  ⟨0, 271,
    ((0, 0) :: ([(2, 5), (3, 9), (4, 217), (5, 224)] ++ [(1, 271)])).reverse⟩

theorem gluedName_taken :
    (meaning Old.oneUser).closed = true ∧ (meaning Old.oneUser).solid = true ∧
    (meaning Old.oneUser).allTaken 0 none gluedName.toList =
      [(0, 271, [(2, 5), (3, 9), (4, 217), (5, 224)])] ∧
    slice gluedName.toList.toArray 0 9 = "const$org".toList ∧
    slice gluedName.toList.toArray 5 9 = "$org".toList ∧
    slice gluedName.toList.toArray 217 224 = "user.id".toList ∧
    gluedName.toList.toArray.size = 271 ∧
    gluedName.toList.toArray[5]? = some '$' := by
  decide +kernel

/-- The word may be the beginning of a longer name, of which the rule then
makes a declaration. -/
theorem organization_splits_name :
    ∃ rs r₃ m, Migration.rules = .ok rs ∧ rs[2]? = some r₃ ∧
    r₃.name = "single-user-organization" ∧
    r₃.pattern.Occurrences gluedName.toList.toArray [m] ∧
    slice gluedName.toList.toArray m.start (m.start + 9) = "const$org".toList ∧
    ¬ Alone gluedName.toList.toArray m.start (m.start + 5) ∧
    r₃.apply gluedName =
      .ok ⟨"const $org = await createTestOrganization(user.id, 'admin')",
        1⟩ := by
  obtain ⟨r₁, r₂, r₃, r₄, r₅, hrules, hnames, hset⟩ := rules_eq_ok
  simp only [List.map_cons, List.map_nil, List.cons.injEq] at hnames
  obtain ⟨hclosed, hsolid, hall, hfront, hbinding, huser, hsize, hdollar⟩ :=
    gluedName_taken
  have hone := hset.oneUser
  have hgroup : ∀ {g x y name value},
      ["binding", "user"].findIdx? (· == name) = some g →
      gluedMatch.span? (g + 1) = some (x, y) →
      slice gluedName.toList.toArray x y = String.toList value →
      (r₃.hit gluedName gluedMatch).group name = .ok value := by
    intro g x y name value hg hspan hvalue
    rw [Hit.group, Rule.group?_hit hone.names hg, hspan, Option.map_some,
      hvalue, String.ofList_toList]
  have hfilled : List.Forall₂ (fun part s =>
      Part.produce (r₃.hit gluedName gluedMatch) part = .ok s) New.oneUser _ :=
    .cons rfl (.cons (hgroup (g := 0) rfl rfl hbinding) (.cons rfl
      (.cons (hgroup (g := 1) rfl rfl huser) (.cons rfl .nil))))
  obtain ⟨s, hs, hmade⟩ := Template.produce_eq_ok hfilled
  have htext : String.ofList s.toList =
      "const $org = await createTestOrganization(user.id, 'admin')" := by
    rw [hmade]
    decide +kernel
  have hocc : r₃.pattern.Occurrences gluedName.toList.toArray [gluedMatch] :=
    hone.denotes.occurrences_singleton hclosed hsolid
      ((congrArg _ gluedName.toList.toList_toArray).trans hall)
  have hproduce : r₃.produce (r₃.hit gluedName gluedMatch) = .ok s := by
    rw [hone.produce]
    exact hs
  refine ⟨_, r₃, gluedMatch, hrules, rfl, hnames.2.2.1, hocc, hfront,
    fun halone => ?_, ?_⟩
  · cases halone.2 '$' hdollar
  · rw [Rule.apply_once hone.denotes hclosed hsolid hall hproduce, hsize,
      slice_self, slice_self, List.nil_append, List.append_nil, htext]

end Codemod.Migration
