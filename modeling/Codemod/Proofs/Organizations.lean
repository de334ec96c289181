import Codemod.Proofs.Layout
import Codemod.Proofs.MigrationRules
import Codemod.Proofs.Turns

/-!
# Organizations in any layout

The creation of an organization is replaced however it was laid out and
whatever it stands between: the text before it and the text behind it are
rewritten on their own, and the statement gives way to the call of a helper
with what stood in its slots. The texts around may hold statements of the same
kind, or beginnings of such. None of them goes into the statement, since no
statement has the word `const` inside of it with an identifier behind.
-/

namespace Codemod.Migration

open Pattern

/-! ## Names and chains -/

namespace Slot

/-- A character that an identifier may begin with. -/
def beginsName (c : Char) : Bool := c.isAlpha || c == '_' || c == '$'

/-- A character that an identifier may go on with. -/
def continuesName (c : Char) : Bool := Text.isWord c || c == '$'

/-- An identifier. -/
def IsName (w : List Char) : Prop :=
  ∃ c cs, w = c :: cs ∧ beginsName c = true ∧ ∀ d ∈ cs, continuesName d = true

/-- Identifiers joined by dots. -/
inductive IsChain : List Char → Prop where
  | name {w : List Char} (h : IsName w) : IsChain w
  | link {w v : List Char} (h : IsName w) (h' : IsChain v) :
      IsChain (w ++ '.' :: v)

variable {i : Nat} {b a : Option Char} {w : List Char}

theorem has_nameStart {c : Char} (h : beginsName c = true) :
    nameStart.has c = true := by
  delta beginsName Char.isAlpha Char.isUpper Char.isLower at h
  simp only [Bool.or_eq_true, Bool.and_eq_true, decide_eq_true_eq, beq_iff_eq,
    ge_iff_le] at h
  rw [CharSet.has, nameStart]
  simp only [Text.Ranges.has, Bool.and_eq_true, Bool.or_eq_true,
    decide_eq_true_eq]
  rcases h with ((h | h) | rfl) | rfl
  · have hlo : 0x41 ≤ c.toNat := h.1
    have hhi : c.toNat ≤ 0x5a := h.2
    omega
  · have hlo : 0x61 ≤ c.toNat := h.1
    have hhi : c.toNat ≤ 0x7a := h.2
    omega
  · decide
  · decide

theorem nameRest_ranges : nameRest.ranges = (0x24, 0x24) :: Text.word := by
  decide +kernel

theorem has_nameRest {c : Char} (h : continuesName c = true) :
    nameRest.has c = true := by
  rw [CharSet.has, nameRest_ranges]
  rw [continuesName, Bool.or_eq_true, beq_iff_eq] at h
  simp only [Text.Ranges.has, Bool.and_eq_true, Bool.or_eq_true,
    decide_eq_true_eq]
  rcases h with h | rfl
  · obtain ⟨r, hr, hlo, -⟩ := covers_of_has h
    have hall : Text.word.all (fun r => decide (0x24 ≤ r.1)) = true := by
      decide +kernel
    have hle := of_decide_eq_true (List.all_eq_true.mp hall r hr)
    exact ⟨by omega, .inr h⟩
  · decide

theorem continuesName_of_ascii {cs : List Char}
    (h : cs.all Text.isAsciiWord = true) :
    ∀ d ∈ cs, continuesName d = true := by
  intro d hd
  rw [continuesName,
    Token.isWord_of_isAsciiWord (List.all_eq_true.mp h d hd), Bool.true_or]

theorem IsName.spells (h : IsName w) : Spells nameRegex i b w a [] := by
  obtain ⟨c, cs, rfl, hc, hcs⟩ := h
  exact .seq (u := [c]) (v := cs) (.one (has_nameStart hc))
    (spells_run.mpr ⟨fun d hd => has_nameRest (hcs d hd), rfl⟩)

theorem IsChain.spells (h : IsChain w) : Spells chainRegex i b w a [] := by
  induction h generalizing i b with
  | @name w h =>
      have hstop : Spells chainRegex i b (w ++ []) a ([] ++ []) :=
        .seq h.spells .stop
      rw [List.append_nil] at hstop
      exact hstop
  | @link w v h _ ih =>
      obtain ⟨u, u', ms, ns, hu, hu', rfl, hnil⟩ :=
        spells_seq.mp (ih (i := i + w.length + 1) (b := some '.'))
      obtain ⟨rfl, rfl⟩ := List.append_eq_nil_iff.mp hnil.symm
      have hdot : Spells (.text ['.']) (i + w.length) (w.getLast?.or b) ['.']
          (u.head?.or (u'.head?.or a)) [] := spells_text.mpr ⟨rfl, rfl⟩
      have hlink : Spells (.seq (.text ['.']) nameRegex) (i + w.length)
          (w.getLast?.or b) ('.' :: u) (u'.head?.or a) [] := hdot.seq hu
      have hlast : ('.' :: u).getLast?.or (w.getLast?.or b) =
          u.getLast?.or (some '.') := by
        rw [List.getLast?_cons]
        cases u.getLast? <;> rfl
      have hplace : i + w.length + ('.' :: u).length =
          i + w.length + 1 + u.length := by
        rw [List.length_cons]
        omega
      rw [← hlast, ← hplace] at hu'
      exact Spells.seq h.spells (hlink.round hu')

theorem slots_name : slots name.toList = nameRegex := if_pos rfl

theorem slots_chain : slots chain.toList = chainRegex :=
  (if_neg (by decide)).trans (if_pos rfl)

theorem slots_role :
    slots "'org_role_admin'".toList = .text "'org_role_admin'".toList ∧
    slots "'org_role_member'".toList = .text "'org_role_member'".toList := by
  decide +kernel

end Slot

/-! ## The statements in a document -/

/-- The rule replaces the code by the text `made`, and rewrites what stands
before and behind it as if each stood alone. -/
def InPlace (r : Rule) (pre code post made : String) : Prop :=
  ∃ e e', r.apply pre = .ok e ∧ r.apply post = .ok e' ∧
    r.apply (pre ++ code ++ post) =
      .ok ⟨e.text ++ made ++ e'.text, e.replacements + 1 + e'.replacements⟩

/-- The pieces that both statements begin with. -/
def opening : List Piece :=
  [.token (.word "const".toList), .slot "binding".toList Slot.name.toList]

/-- What they look like, up to the first character of the identifier. -/
def openingOutline : Outline :=
  Outline.ofText "const".toList ++
    [.one Text.white, .run Text.white, .one Slot.nameStart.ranges]

/-- What is checked about a shape that is replaced in place: it is read in one
way only, its pieces can be laid out, and nothing that it spells goes into
another statement. -/
def placeable (s : Shape) (names : List String) : Bool :=
  (meaning s).sharp anything && s.pieces.all Piece.edged &&
    s.pieces.flatMap Piece.names == names.map String.toList &&
    s.pieces.take 2 == opening &&
    tailsApart steps openingOutline (meaning s).outline

theorem organizations_placeable :
    placeable Old.oneUser ["binding", "user"] = true ∧
    placeable Old.twoUsers ["binding", "first_user", "first_role",
      "second_user", "second_role"] = true := by
  decide +kernel

section

variable {f : Filling} {s : Shape} {names : List String}

theorem fits_opening {ps : List Piece} {w : List Char}
    (h : Laid f ps w) (hps : ps.take 2 = opening)
    (hname : Slot.IsName (f.text "binding".toList)) :
    ∃ u v, w = u ++ v ∧ Fits openingOutline u := by
  obtain ⟨c, cs, htext, hc, -⟩ := hname
  cases h with
  | last p => cases hps
  | @cons p q ps gap w hwhite hgap hlaid =>
      cases hps
      have hw : ∃ v, w = c :: (cs ++ v) := by
        cases hlaid with
        | last => exact ⟨[], by rw [List.append_nil]; exact htext⟩
        | @cons _ _ _ gap' w' =>
            refine ⟨gap' ++ w', ?_⟩
            show f.text "binding".toList ++ _ = _
            rw [htext, List.cons_append]
      obtain ⟨v, rfl⟩ := hw
      obtain ⟨d, gap, rfl⟩ := List.exists_cons_of_ne_nil (hgap rfl rfl)
      have hrun : Fits [.run Text.white] gap :=
        fits_run fun x hx =>
          covers_of_has (hwhite x (List.mem_cons_of_mem _ hx))
      have hfirst : Fits [.one Slot.nameStart.ranges] [c] :=
        .one (covers_of_has (Slot.has_nameStart hc)) .nil
      refine ⟨"const".toList ++ (d :: (gap ++ [c])), cs ++ v, ?_, ?_⟩
      · show "const".toList ++ _ = _
        simp
      · exact (fits_ofText _).append (.one
            (covers_of_has (hwhite d List.mem_cons_self)) (hrun.append hfirst))

/-- A statement in any layout is replaced in place. -/
theorem inPlace_of_laid {r : Rule} {t : Template} {qs : List Shape}
    {pre code post made : String} (h : Careful r s t names qs)
    (hs : placeable s names = true) (hfills : Fills f slots s.pieces)
    (hname : Slot.IsName (f.text "binding".toList))
    (hf : f.map Prod.fst = names)
    (ht : t.filled? f = some made) (hlaid : Laid f s.pieces code.toList)
    (hpre : Anchor.isWord? pre.toList.getLast? = false) :
    InPlace r pre code post made := by
  simp only [placeable, Bool.and_eq_true, beq_iff_eq, List.all_eq_true] at hs
  obtain ⟨⟨⟨⟨hsharp, hedged⟩, hgroups⟩, hopening⟩, hinto⟩ := hs
  have hlocal := h.isLocal hsharp (Template.lineEnding_not_mem ht)
  obtain ⟨l, hspells, -, hplaces⟩ := hlaid.spells (n := 1) (i := 0) (b := none)
    (a := none) hedged hfills (fun _ _ _ => rfl) rfl
  have hgrouped : Grouped f names code.toList l := by
    intro g name hg
    have hget : (s.pieces.flatMap Piece.names)[g]? = some name.toList := by
      rw [hgroups, List.getElem?_map, hg]
      rfl
    obtain ⟨u, v, hcode, hmarked⟩ := hplaces g _ hget
    rw [Nat.zero_add, Nat.add_comm 1 g] at hmarked
    exact ⟨u, v, hcode, hmarked⟩
  obtain ⟨u, v, hcode, hfits⟩ := fits_opening hlaid hopening hname
  refine hlocal.apply_between hspells ?_ hpre
    (hspells.fits.endsPlain (tidy_iff.mp h.tidy).2).2 ?_
  · rw [h.produce]
    exact hgrouped.produce_whole h.names hf ht
  · intro x y s' i b a l' hx hy heq
    rw [hcode, List.append_assoc] at heq
    exact not_spells_into hinto hfits hx hy heq

end

theorem slots_oneUser : Old.oneUser.pieces.filterMap Piece.slot? =
    [("binding".toList, Slot.name.toList),
      ("user".toList, Slot.chain.toList)] := by
  decide +kernel

theorem slots_twoUsers : Old.twoUsers.pieces.filterMap Piece.slot? =
    [("binding".toList, Slot.name.toList), ("first_user".toList,
      Slot.chain.toList), ("first_role".toList, "'org_role_admin'".toList),
      ("second_user".toList, Slot.chain.toList),
      ("second_role".toList, "'org_role_member'".toList)] := by
  decide +kernel

theorem fills_oneUser {binding user : String}
    (hbinding : Slot.IsName binding.toList) (huser : Slot.IsChain user.toList) :
    Fills [("binding", binding), ("user", user)] slots Old.oneUser.pieces := by
  rw [Fills, slots_oneUser]
  simp only [List.forall_mem_cons]
  refine ⟨fun i b a => ?_, fun i b a => ?_,
    fun x hx => absurd hx List.not_mem_nil⟩
  · rw [Slot.slots_name]
    exact hbinding.spells
  · rw [Slot.slots_chain]
    exact huser.spells

theorem fills_twoUsers {binding first second : String}
    (hbinding : Slot.IsName binding.toList) (hfirst : Slot.IsChain first.toList)
    (hsecond : Slot.IsChain second.toList) :
    Fills [("binding", binding), ("first_user", first),
      ("first_role", "'org_role_admin'"), ("second_user", second),
      ("second_role", "'org_role_member'")] slots Old.twoUsers.pieces := by
  rw [Fills, slots_twoUsers]
  simp only [List.forall_mem_cons]
  refine ⟨fun i b a => ?_, fun i b a => ?_, fun i b a => ?_, fun i b a => ?_,
    fun i b a => ?_, fun x hx => absurd hx List.not_mem_nil⟩
  · rw [Slot.slots_name]
    exact hbinding.spells
  · rw [Slot.slots_chain]
    exact hfirst.spells
  · rw [Slot.slots_role.1]
    exact spells_text.mpr ⟨rfl, rfl⟩
  · rw [Slot.slots_chain]
    exact hsecond.spells
  · rw [Slot.slots_role.2]
    exact spells_text.mpr ⟨rfl, rfl⟩

theorem filled_oneUser (binding user : String) :
    New.oneUser.filled? [("binding", binding), ("user", user)] =
      some ("const " ++ binding ++ " = await createTestOrganization(" ++ user ++
        ", 'admin')") := by
  show some ("const " ++ (binding ++ (" = await createTestOrganization("
    ++ (user ++ ", 'admin')")))) = _
  simp only [String.append_assoc]

theorem bareRole_organization :
    String.ofList (bareRole "'org_role_admin'".toList) = "admin" ∧
    String.ofList (bareRole "'org_role_member'".toList) = "member" := by
  decide +kernel

theorem filled_twoUsers (binding first second : String) :
    New.twoUsers.filled? [("binding", binding), ("first_user", first),
        ("first_role", "'org_role_admin'"), ("second_user", second),
        ("second_role", "'org_role_member'")] = some
      ("const " ++ binding
          ++ " = await createTestOrganizationWithMultipleUsers([\x7b userId: "
          ++ first ++ ", role: 'admin' \x7d, \x7b userId: " ++ second
          ++ ", role: 'member' \x7d])") := by
  have hmiddle : ∀ rest : String,
      ", role: '" ++ ("admin" ++ ("' \x7d, \x7b userId: " ++ rest)) =
        ", role: 'admin' \x7d, \x7b userId: " ++ rest := by
    intro rest
    rw [← String.append_assoc, ← String.append_assoc]
    rfl
  have hend : ", role: '" ++ ("member" ++ "' \x7d])") =
      ", role: 'member' \x7d])" := by
    decide +kernel
  show some ("const " ++ (binding
    ++ (" = await createTestOrganizationWithMultipleUsers([\x7b userId: "
    ++ (first ++ (", role: '"
    ++ (String.ofList (bareRole "'org_role_admin'".toList)
    ++ ("' \x7d, \x7b userId: " ++ (second ++ (", role: '"
    ++ (String.ofList (bareRole "'org_role_member'".toList)
    ++ "' \x7d])")))))))))) = _
  rw [bareRole_organization.1, bareRole_organization.2, hmiddle, hend]
  simp only [String.append_assoc]

/-- Both rules replace their statement in any layout, between any two texts of
which the first one does not end with a word character. -/
theorem organizations_in_place :
    ∃ rs r₃ r₄, Migration.rules = .ok rs ∧ rs[2]? = some r₃ ∧ rs[3]? = some r₄ ∧
    r₃.name = "single-user-organization" ∧ r₄.name = "multi-user-organization" ∧
    (∀ binding user code pre post : String, Slot.IsName binding.toList →
      Slot.IsChain user.toList →
      Laid [("binding", binding), ("user", user)] Old.oneUser.pieces
        code.toList →
      Anchor.isWord? pre.toList.getLast? = false →
      InPlace r₃ pre code post ("const " ++ binding ++
        " = await createTestOrganization(" ++ user ++ ", 'admin')")) ∧
    ∀ binding first second code pre post : String, Slot.IsName binding.toList →
      Slot.IsChain first.toList → Slot.IsChain second.toList →
      Laid [("binding", binding), ("first_user", first),
        ("first_role", "'org_role_admin'"), ("second_user", second),
        ("second_role", "'org_role_member'")] Old.twoUsers.pieces code.toList →
      Anchor.isWord? pre.toList.getLast? = false →
      InPlace r₄ pre code post ("const " ++ binding ++
        " = await createTestOrganizationWithMultipleUsers([\x7b userId: " ++
        first ++ ", role: 'admin' \x7d, \x7b userId: " ++ second ++
        ", role: 'member' \x7d])") := by
  obtain ⟨r₁, r₂, r₃, r₄, r₅, hrules, hnames, hset⟩ := rules_eq_ok
  simp only [List.map_cons, List.map_nil, List.cons.injEq] at hnames
  refine ⟨_, r₃, r₄, hrules, rfl, rfl, hnames.2.2.1, hnames.2.2.2.1, ?_, ?_⟩
  · intro binding user code pre post hbinding huser hlaid hpre
    have hname : Slot.IsName (Filling.text [("binding", binding),
          ("user", user)] "binding".toList) := hbinding
    exact inPlace_of_laid hset.oneUser organizations_placeable.1
      (fills_oneUser hbinding huser) hname
      rfl (filled_oneUser binding user) hlaid hpre
  · intro binding first second code pre post hbinding hfirst hsecond hlaid hpre
    have hname :
        Slot.IsName (Filling.text [("binding", binding), ("first_user", first),
      ("first_role", "'org_role_admin'"), ("second_user", second),
      ("second_role", "'org_role_member'")] "binding".toList) := hbinding
    exact inPlace_of_laid hset.twoUsers organizations_placeable.2
      (fills_twoUsers hbinding hfirst hsecond) hname rfl
      (filled_twoUsers binding first second) hlaid hpre

/-- A statement with a line break between any two pieces, behind the beginning
of another one. -/
theorem organizations_in_place_spaced :
    ∃ rs r₃ r₄, Migration.rules = .ok rs ∧ rs[2]? = some r₃ ∧
    rs[3]? = some r₄ ∧
    InPlace r₃ "const a = await " (String.ofList
        (spaced [("binding", "org"), ("user", "user.id")] ['\r', '\n']
          Old.oneUser.pieces))
      ";\n" "const org = await createTestOrganization(user.id, 'admin')" ∧
    InPlace r₄ "const a = await " (String.ofList
        (spaced [("binding", "org"), ("first_user", "user.id"),
          ("first_role", "'org_role_admin'"), ("second_user", "$b"),
          ("second_role", "'org_role_member'")] ['\r', '\n']
          Old.twoUsers.pieces))
      ";\n"
      ("const org = await createTestOrganizationWithMultipleUsers([\x7b userId: user.id, "
        ++ "role: 'admin' \x7d, \x7b userId: $b, role: 'member' \x7d])") := by
  obtain ⟨rs, r₃, r₄, hrules, h₃, h₄, -, -, hone, htwo⟩ :=
    organizations_in_place
  have hname : Slot.IsName "org".toList :=
    ⟨'o', ['r', 'g'], rfl, by decide, Slot.continuesName_of_ascii rfl⟩
  have huser : Slot.IsName "user".toList :=
    ⟨'u', ['s', 'e', 'r'], rfl, by decide, Slot.continuesName_of_ascii rfl⟩
  have hid : Slot.IsName "id".toList :=
    ⟨'i', ['d'], rfl, by decide, Slot.continuesName_of_ascii rfl⟩
  have hother : Slot.IsName "$b".toList :=
    ⟨'$', ['b'], rfl, by decide, Slot.continuesName_of_ascii rfl⟩
  have hchain : Slot.IsChain "user.id".toList := .link huser (.name hid)
  have hwhite : ∀ c ∈ ['\r', '\n'], Text.isWhite c = true :=
    List.all_eq_true.mp rfl
  refine ⟨rs, r₃, r₄, hrules, h₃, h₄, ?_, ?_⟩
  · refine hone "org" "user.id" _ _ _ hname hchain ?_ (by decide +kernel)
    rw [String.toList_ofList]
    exact laid_spaced hwhite (List.cons_ne_nil _ _) (by decide +kernel)
  · refine htwo "org" "user.id" "$b" _ _ _ hname hchain (.name hother) ?_
      (by decide +kernel)
    rw [String.toList_ofList]
    exact laid_spaced hwhite (List.cons_ne_nil _ _) (by decide +kernel)

/-- The pieces of the statement with one user. -/
example : Old.oneUser.pieces.map
      (Piece.text [("binding", "org"), ("user", "user.id")]) =
    ["const", "org", "=", "await", "prisma", ".", "organization",
      ".", "create", "(", "\x7b", "data", ":", "\x7b", "name", ":",
      "faker", ".", "company", ".", "name", "(", ")", ",", "slug", ":",
      "faker", ".", "helpers", ".", "slugify", "(", "faker", ".", "company",
      ".", "name", "(", ")", ")", ".", "toLowerCase", "(", ")", ",",
      "description", ":", "faker", ".", "company", ".", "catchPhrase", "(",
      ")", ",", "users", ":", "\x7b", "create", ":", "\x7b", "userId", ":",
      "user.id", ",", "organizationRoleId", ":", "'org_role_admin'", "\x7d",
      "\x7d", "\x7d", "\x7d", ")"].map String.toList := by
  decide +kernel

/-- Only behind `const` and between `await` and `prisma` some white space has
to be there. -/
example : [Old.oneUser, Old.twoUsers].map (fun s =>
      (s.pieces.zip s.pieces.tail).filter fun x => x.1.wordy && x.2.wordy) =
    .replicate 2 [(.token (.word "const".toList),
          .slot "binding".toList Slot.name.toList),
      (.token (.word "await".toList), .token (.word "prisma".toList))] := by
  decide +kernel

end Codemod.Migration
