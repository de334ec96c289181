import Codemod.Migration
import Codemod.Proofs.ShapeSpell
import Codemod.Proofs.Templates

/-!
# The shapes of the migration

What the patterns of the five rules mean. Their slots hold patterns of their
own, and the lemmas about these come first: identifiers, identifiers joined by
dots, subjects of assertions, and the two roles. Then `known` is what all
pieces of the five shapes satisfy, and `compile_of_accepted` says of a shape of
such pieces that its pattern denotes the expression of the shape.
-/

namespace Codemod.Migration

open Pattern Pattern.Reader

namespace Slot

/-- A character that an identifier may begin with. -/
def nameStart : CharSet :=
  ⟨[(0x24, 0x24), (0x41, 0x5a), (0x5f, 0x5f), (0x61, 0x7a)]⟩

/-- A character that an identifier may go on with. -/
def nameRest : CharSet :=
  .ofItems [.property .word true, .range '$' '$'] false false

/-- Every character but the two parentheses. -/
def noParen : CharSet := ⟨[(0, 0x27), (0x2a, 0x10ffff)]⟩

/-- The expression of an identifier. -/
def nameRegex : Regex := .seq (.one nameStart) (.star true (.one nameRest))

/-- The expression of identifiers joined by dots. -/
def chainRegex : Regex :=
  .seq nameRegex (.star true (.seq (.text ['.']) nameRegex))

/-- The expression of parentheses without others inside. -/
def callRegex : Regex :=
  .seq (.text ['(']) (.seq (.star true (.one noParen)) (.text [')']))

/-- The expression of the subject of an assertion. -/
def subjectRegex : Regex := .plus true (.alt (.one noParen) callRegex)

variable {o : Options} {n : Nat}

theorem adds_nameStart :
    Adds o n "[A-Za-z_$]".toList [{ body := .set nameStart, depth := 2 }] [] :=
  fun _ _ _ _ _ _ _ => ⟨false, rfl⟩

theorem ofSet_nameRest : Form.ofSet nameRest = .set nameRest := by
  have hsingle : nameRest.single? = none := by decide +kernel
  rw [Form.ofSet, hsingle]

theorem adds_nameRest :
    Adds o n "[\\w$]".toList [{ body := .set nameRest, depth := 2 }] [] := by
  intro groups branches items names l _ _
  refine ⟨false, ?_⟩
  rw [← ofSet_nameRest]
  show Except.ok (State.closeClass _ _) = _
  rw [State.closeClass, State.push]
  rfl

theorem adds_noParen :
    Adds o n "[^()]".toList [{ body := .set noParen, depth := 2 }] [] :=
  fun _ _ _ _ _ _ _ => ⟨false, rfl⟩

/-- The items of an identifier. -/
def nameItems : List Item :=
  [{ body := .set nameStart, depth := 2 },
    { body := .set nameRest, rounds := some ⟨0, none, true⟩, depth := 3 }]

theorem adds_name : Adds o n name.toList nameItems [] :=
  adds_nameStart.and (adds_nameRest.repeated (.inl rfl) rfl)

theorem means_name : Means nameItems nameRegex := by
  have hstar : Same (Form.repeated 0 none true (.set nameRest)).regex
      (.star true (.one nameRest)) :=
    Form.same_repeated_star rfl true
  exact (Same.refl _).seq ((same_seq_empty _).trans hstar)

theorem depth_nameItems : ∀ x ∈ nameItems, x.depth ≤ 3 := by
  simp [nameItems]

theorem reads_name : Reads o n 7 name.toList nameRegex [] :=
  ⟨nameItems, adds_name, means_name,
    fun x hx => Nat.le_trans (depth_nameItems x hx) (by decide)⟩

/-- The items of a dot and an identifier. -/
def linkItems : List Item := literal '.' :: nameItems

theorem form_linkItems : (grouped linkItems).form = .seq (.text ['.'])
      (.seq (.set nameStart) (.rep 0 none true (.set nameRest))) := rfl

theorem reads_chain : Reads o n 7 chain.toList chainRegex [] := by
  have hdot : Adds o n "\\.".toList [literal '.'] [] := adds_escapeChar '.'
  have hlink : Adds o n ("\\.".toList ++ name.toList) linkItems [] :=
    hdot.and adds_name
  have hlinks := hlink.unnamed.repeated (c := '*') (.inl rfl) rfl
  have hmeans : Means linkItems (.seq (.text ['.']) nameRegex) :=
    (means_literals ['.']).append means_name
  have hstar : Same (Form.repeated 0 none true (grouped linkItems).form).regex
      (.star true (.seq (.text ['.']) nameRegex)) := by
    refine Same.trans (Form.same_repeated_star ?_ true)
      (hmeans.grouped.star true)
    rw [form_linkItems]
    rfl
  refine ⟨_, adds_name.and hlinks,
    means_name.append ((means_singleton _).trans hstar), ?_⟩
  intro x hx
  rcases List.mem_append.mp hx with hx | hx
  · exact Nat.le_trans (depth_nameItems x hx) (by decide)
  · rw [List.mem_singleton.mp hx]
    show (grouped linkItems).depth + 1 + 1 ≤ 7
    exact Nat.le_of_ble_eq_true rfl

/-- The items of parentheses without others inside. -/
def callItems : List Item :=
  [literal '(',
    { body := .set noParen, rounds := some ⟨0, none, true⟩, depth := 3 },
    literal ')']

theorem form_subject : Form.alternative
    [(grouped [{ body := .set noParen, depth := 2 }]).form,
      (grouped callItems).form] =
    .alt (.set noParen)
      (.seq (.text ['('])
        (.seq (.repeated 0 none true (.set noParen)) (.text [')']))) := rfl

theorem reads_subject : Reads o n 7 subject.toList subjectRegex [] := by
  have hopen : Adds o n "\\(".toList [literal '('] [] := adds_escapeChar '('
  have hclose : Adds o n "\\)".toList [literal ')'] [] := adds_escapeChar ')'
  have hcall : Adds o n ("\\(".toList ++
      ("[^()]".toList ++ ['*'] ++ "\\)".toList)) callItems [] :=
    hopen.and ((adds_noParen.repeated (.inl rfl) rfl).and hclose)
  have hboth := (adds_noParen.either hcall).repeated (c := '+') (.inr rfl) rfl
  have hinner : Same
    (Form.alternative [(grouped [{ body := .set noParen, depth := 2 }]).form,
      (grouped callItems).form]).regex (.alt (.one noParen) callRegex) := by
    rw [form_subject]
    exact (Same.refl _).alt ((Same.refl _).seq
      ((Form.same_repeated_star rfl true).seq (Same.refl _)))
  have hplus : Same (Form.repeated 1 none true (Form.alternative
      [(grouped [{ body := .set noParen, depth := 2 }]).form,
        (grouped callItems).form])).regex
      subjectRegex := by
    refine Same.trans (Form.same_repeated_plus ?_ true) (hinner.plus true)
    rw [form_subject]
    rfl
  refine ⟨_, hboth, (means_singleton _).trans hplus, ?_⟩
  intro x hx
  rw [List.mem_singleton.mp hx]
  exact Nat.le_of_ble_eq_true rfl

theorem reads_plain {cs : List Char} (h : escape cs = cs) :
    Reads o n 7 cs (.text cs) [] := by
  have hreads : Reads o n 7 (escape cs) (.text cs) [] := reads_escape cs
  rw [h] at hreads
  exact hreads

end Slot

/-- The expressions of the slots. A slot whose pattern is not one of the three
holds fixed text. -/
def slots (pattern : List Char) : Regex :=
  if pattern = Slot.name.toList then Slot.nameRegex
  else if pattern = Slot.chain.toList then Slot.chainRegex
  else if pattern = Slot.subject.toList then Slot.subjectRegex
  else .text pattern

/-- The piece is a token, a slot with a known pattern, or an indentation where
lines have starts. -/
def known (o : Options) : Piece → Bool
  | .token _ => true
  | .slot name pattern =>
    isName name && (pattern == Slot.name.toList || pattern == Slot.chain.toList
      || pattern == Slot.subject.toList || escape pattern == pattern)
  | .indent name => isName name && o.multiLine

theorem readable_of_known {o : Options} {p : Piece} (h : known o p = true) :
    p.Readable slots o := by
  cases p with
  | token t => trivial
  | indent name =>
      rw [known, Bool.and_eq_true] at h
      exact h
  | slot name pattern =>
      simp only [known, Bool.and_eq_true, Bool.or_eq_true, beq_iff_eq] at h
      refine ⟨h.1, fun n => ?_⟩
      rw [slots]
      split
      · next heq => rw [heq]; exact Slot.reads_name
      · split
        · next heq => rw [heq]; exact Slot.reads_chain
        · split
          · next heq => rw [heq]; exact Slot.reads_subject
          · next hname hchain hsubject =>
              rcases h.2 with ((h | h) | h) | h
              · exact absurd h hname
              · exact absurd h hchain
              · exact absurd h hsubject
              · exact Slot.reads_plain h

/-- The pattern is accepted and has the groups from 1 to `n`. -/
def acceptsGroups (o : Options) (cs : List Char) (n : Nat) : Bool :=
  match Reader.read o.flags cs with
  | .ok (form, _) => form.groups == List.range' 1 n
  | .error _ => false

theorem keptNames_of_groups {f : Form} {names : List (Option (List Char))}
    {n : Nat} (hf : f.groups = List.range' 1 n) (hn : names.length = n + 1) :
    keptNames f names = names.map (·.map String.ofList) := by
  have hkept : 0 :: f.groups = List.range' 0 (n + 1) := by
    rw [hf, List.range'_succ]
  have hmax : ∀ (l : List Nat) (k : Nat), k ≤ l.foldl max k ∧
      ∀ x ∈ l, x ≤ l.foldl max k := by
    intro l
    induction l with
    | nil =>
        exact fun k => ⟨Nat.le_refl k, fun x hx => absurd hx List.not_mem_nil⟩
    | cons y l ih =>
        intro k
        obtain ⟨hk, hl⟩ := ih (max k y)
        refine ⟨Nat.le_trans (Nat.le_max_left k y) hk, fun x hx => ?_⟩
        rcases List.mem_cons.mp hx with rfl | hx
        · exact Nat.le_trans (Nat.le_max_right k x) hk
        · exact hl x hx
  have hlast : n ≤ (0 :: f.groups).foldl max 0 := by
    refine (hmax _ 0).2 n ?_
    rw [hkept, List.mem_range'_1]
    omega
  have hcontains : ∀ x ∈ names.zipIdx, (0 :: f.groups).contains x.2 = true := by
    intro x hx
    have hlt := List.snd_lt_of_mem_zipIdx hx
    rw [hkept, List.contains_iff_mem, List.mem_range'_1]
    omega
  rw [keptNames]
  show ((names.take ((0 :: f.groups).foldl max 0 + 1)).zipIdx.map _) = _
  rw [List.take_of_length_le (by omega)]
  calc names.zipIdx.map _ = names.zipIdx.map fun x =>
      x.1.map String.ofList := by
        refine List.map_congr_left fun x hx => ?_
        show (if (0 :: f.groups).contains x.2 = true then _ else _) = _
        rw [if_pos (hcontains x hx)]
    _ = (names.zipIdx.map Prod.fst).map (·.map String.ofList) := by
        rw [List.map_map]
        rfl
    _ = names.map (·.map String.ofList) := by rw [List.zipIdx_map_fst]

/-- The expression of a shape, with its groups numbered from 1 on. -/
def meaning (s : Shape) : Regex := Shape.regex slots 1 s.pieces

/-- The shape has known pieces, these names, and a pattern that is accepted. -/
def accepted (s : Shape) (o : Options) (names : List String) : Bool :=
  s.pieces.all (known o) &&
    s.pieces.flatMap Piece.names == names.map String.toList &&
    acceptsGroups o (Shape.join s.pieces) names.length

/-- An accepted pattern denotes the expression of its shape. -/
theorem compile_of_accepted {s : Shape} {o : Options} {names : List String}
    (h : accepted s o names = true) (hnodup : names.Nodup) :
    ∃ p, Pattern.compile s.pattern o = .ok p ∧ p.Names names ∧
    p.Denotes (meaning s) := by
  rw [accepted, Bool.and_eq_true, Bool.and_eq_true, beq_iff_eq] at h
  obtain ⟨⟨hknown, hnames⟩, hgroups⟩ := h
  have hreadable : ∀ p ∈ s.pieces, p.Readable slots o :=
    fun p hp => readable_of_known (List.all_eq_true.mp hknown p hp)
  have hdistinct : (s.pieces.flatMap Piece.names).Nodup := by
    rw [hnames]
    exact List.Pairwise.map _
      (fun a b hne heq => hne (String.toList_injective heq)) hnodup
  obtain ⟨form, hsame, hparse⟩ := Shape.parse_pattern hreadable hdistinct
  rw [acceptsGroups, ← show s.pattern.toList = Shape.join s.pieces
    from String.toList_ofList, Reader.read_of_parse hparse] at hgroups
  by_cases hfits : form.fits = true
  · rw [if_pos hfits, beq_iff_eq] at hgroups
    have hcompile := compile_of_parse hparse
    rw [if_pos hfits] at hcompile
    refine ⟨_, hcompile, ?_, whole_compile hcompile, form.regex, rfl, hsame⟩
    show keptNames form (none :: (s.pieces.flatMap Piece.names).map some) = _
    rw [keptNames_of_groups hgroups (by simp [hnames]), hnames]
    simp
  · rw [if_neg hfits] at hgroups
    cases hgroups

end Codemod.Migration
