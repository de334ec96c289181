import Codemod.Pattern
import Codemod.Pattern.Escape
import Codemod.Proofs.FormSpell
import Codemod.Proofs.Grammar

/-!
# Reading a pattern piece by piece

Patterns are put together from pieces of text, and each piece is read on its
own: it adds some items to what was read before it, and perhaps a name for a
group, and leaves everything else alone. `Adds` says this of a piece. Since
reading is a fold, two pieces in a row add the items of both, which is
`Adds.append`; a group around a piece adds one item, which is `Adds.named`.

What a pattern then means is what its items spell, one after the other:
`compile_of_adds`.
-/

namespace Codemod.Pattern

open Regex (chain)

namespace Reader

/-- Reading `cs` between items, with `n` names given so far, adds the items
`xs` and the names `new`. -/
def Adds (o : Options) (n : Nat) (cs : List Char) (xs : List Item)
    (new : List (List Char)) : Prop :=
  ∀ groups branches items names lazyable, names.length = n →
    (∀ x ∈ new, some x ∉ names) → ∃ lazyable', cs.foldlM step
      ⟨.items, groups, branches, items, o.flags, names, lazyable⟩ =
      .ok ⟨.items, groups, branches, xs.reverse ++ items, o.flags,
        (new.map some).reverse ++ names, lazyable'⟩

variable {o : Options} {n : Nat} {cs ds : List Char} {xs ys : List Item}
  {new new' : List (List Char)}

theorem foldlM_ok {st st' : State}
    (h : cs.foldlM step st = .ok st') (ds : List Char) :
    (cs ++ ds).foldlM step st = ds.foldlM step st' := by
  rw [List.foldlM_append, h]
  rfl

theorem adds_nil : Adds o n [] [] [] := fun _ _ _ _ l _ _ => ⟨l, rfl⟩

theorem Adds.append (h : Adds o n cs xs new)
    (h' : Adds o (n + new.length) ds ys new') (hnew : ∀ x ∈ new', x ∉ new) :
    Adds o n (cs ++ ds) (xs ++ ys) (new ++ new') := by
  intro groups branches items names l hn hfresh
  obtain ⟨l₁, hl₁⟩ := h groups branches items names l hn
    fun x hx => hfresh x (List.mem_append_left _ hx)
  have hn' : ((new.map some).reverse ++ names).length = n + new.length := by
    simp [hn, Nat.add_comm]
  have hfresh' : ∀ x ∈ new', some x ∉ (new.map some).reverse ++ names := by
    intro x hx hmem
    rcases List.mem_append.mp hmem with hmem | hmem
    · rw [List.mem_reverse, List.mem_map] at hmem
      obtain ⟨y, hy, heq⟩ := hmem
      exact hnew x hx (Option.some.inj heq ▸ hy)
    · exact hfresh x (List.mem_append_right _ hx) hmem
  obtain ⟨l₂, hl₂⟩ := h' groups branches (xs.reverse ++ items) _ l₁ hn' hfresh'
  refine ⟨l₂, ?_⟩
  rw [foldlM_ok hl₁, hl₂]
  simp

/-- Two pieces without names. -/
theorem Adds.and (h : Adds o n cs xs []) (h' : Adds o n ds ys []) :
    Adds o n (cs ++ ds) (xs ++ ys) [] :=
  h.append h' fun _ hx => absurd hx List.not_mem_nil

/-! ## Characters -/

/-- A literal character as an item. -/
def literal (c : Char) : Item := { body := .text [c] }

theorem foldlM_step {st st' : State} {c : Char}
    (h : step st c = .ok st') (cs : List Char) :
    (c :: cs).foldlM step st = cs.foldlM step st' := by
  rw [List.foldlM_cons, h]
  rfl

theorem stepItems_plain (st : State) {c : Char} (hc : isMeta c = false) :
    stepItems st c = .ok (st.pushChar c) := by
  have hne : ∀ d ∈ metaChars, c ≠ d := by
    rintro d hd rfl
    rw [isMeta, List.contains_iff_mem.mpr hd] at hc
    cases hc
  rw [stepItems.eq_def]
  split <;> first | rfl | exact absurd rfl (hne _ (by decide))

/-- A backslash takes the meaning from every character that has one. -/
theorem stepEscape_of_isMeta (st : State) {c : Char} (hc : isMeta c = true) :
    stepEscape st .items c = .ok (st.pushChar c) := by
  have hall : ∀ d ∈ metaChars, stepEscape st .items d =
      .ok (st.pushChar d) := by
    simp [metaChars, stepEscape, escape?, isEscapable, State.putEscaped]
  exact hall c (List.contains_iff_mem.mp hc)

theorem adds_escapeChar (c : Char) :
    Adds o n (escapeChar c) [literal c] [] := by
  intro groups branches items names l _ _
  refine ⟨false, ?_⟩
  have hpush : ∀ mode l, State.pushChar
      ⟨mode, groups, branches, items, o.flags, names, l⟩ c = ⟨.items, groups,
        branches, literal c :: items, o.flags, names, false⟩ := by
    intro mode l
    show State.push _ { body := .ofSet (.single c) } = _
    rw [Form.ofSet_single]
    rfl
  rw [escapeChar]
  by_cases hc : isMeta c = true
  · have hback :
        step ⟨.items, groups, branches, items, o.flags, names, l⟩ '\\' =
        .ok ⟨.escape .items, groups, branches, items, o.flags, names, false⟩ :=
      rfl
    have hchar : step ⟨.escape .items, groups, branches, items, o.flags, names,
        false⟩ c = .ok _ :=
      stepEscape_of_isMeta _ hc
    rw [if_pos hc, foldlM_step hback, foldlM_step hchar, hpush]
    rfl
  · have hchar :
        step ⟨.items, groups, branches, items, o.flags, names, l⟩ c = .ok _ :=
      stepItems_plain _ (by simpa using hc)
    rw [if_neg hc, foldlM_step hchar, hpush]
    rfl

theorem adds_escape (ds : List Char) :
    Adds o n (escape ds) (ds.map literal) [] := by
  induction ds with
  | nil => exact adds_nil
  | cons c ds ih => exact (adds_escapeChar c).and ih

/-! ## Groups -/

theorem ne_of_isNameChar {c : Char} {first : Bool}
    (h : isNameChar c first = true) :
    (c == '>') = false := by
  rw [beq_eq_false_iff_ne]
  rintro rfl
  revert h
  cases first <;> decide

/-- The name of a group is kept until its end. -/
theorem foldlM_groupName {groups : List OpenGroup} {branches items : List Item}
    {flags : Flags} {names : List (Option (List Char))} {name : List Char}
    (h : isName name = true) :
    name.foldlM step ⟨.groupName [], groups, branches, items, flags, names,
      false⟩ = .ok ⟨.groupName name.reverse, groups, branches, items, flags,
      names, false⟩ := by
  have hstep : ∀ (c : Char) (read : List Char),
      isNameChar c read.isEmpty = true →
      step ⟨.groupName read, groups, branches, items, flags, names, false⟩ c =
        .ok ⟨.groupName (c :: read), groups, branches, items, flags,
          names, false⟩ := by
    intro c read hc
    show stepName _ read c = _
    rw [stepName, ne_of_isNameChar hc, hc]
    rfl
  have hrest : ∀ (cs read : List Char), read ≠ [] →
      cs.all (isNameChar · false) = true → cs.foldlM step
        ⟨.groupName read, groups, branches, items, flags, names, false⟩ =
        .ok ⟨.groupName (cs.reverse ++ read), groups, branches, items, flags,
          names, false⟩ := by
    intro cs
    induction cs with
    | nil => exact fun read _ _ => rfl
    | cons c cs ih =>
        intro read hread hcs
        rw [List.all_cons, Bool.and_eq_true] at hcs
        have hc : isNameChar c read.isEmpty = true := by
          rw [show read.isEmpty = false by simpa using hread]
          exact hcs.1
        rw [foldlM_step (hstep c read hc), ih _ (List.cons_ne_nil _ _) hcs.2]
        simp
  cases name with
  | nil => cases h
  | cons c cs =>
      rw [isName, Bool.and_eq_true] at h
      rw [foldlM_step (hstep c [] h.1), hrest cs [c] (List.cons_ne_nil _ _) h.2]
      simp

/-- All that was read since a group began, as one item. -/
def grouped (xs : List Item) : Item := sequence xs.reverse

theorem Adds.named {name : List Char}
    (hname : isName name = true) (h : Adds o (n + 1) cs xs []) :
    Adds o n ("(?P<".toList ++ name ++ ['>'] ++ cs ++ [')'])
      [{ body := .group n (grouped xs).form, depth := (grouped xs).depth + 1 }]
        [name] := by
  intro groups branches items names l hn hfresh
  refine ⟨false, ?_⟩
  have hhead : "(?P<".toList.foldlM step
      ⟨.items, groups, branches, items, o.flags, names, l⟩ =
      .ok ⟨.groupName [], groups, branches, items, o.flags, names, false⟩ := rfl
  have hopen : step ⟨.groupName name.reverse, groups,
      branches, items, o.flags, names, false⟩ '>' =
      .ok ⟨.items, ⟨some n, items, branches, o.flags⟩ :: groups, [], [],
        o.flags, some name :: names, false⟩ := by
    have hne : name.reverse.isEmpty = false := by
      cases name with
      | nil => cases hname
      | cons => simp
    have hnew : names.contains (some name) = false := by
      simpa using hfresh name List.mem_cons_self
    show stepName _ name.reverse '>' = _
    rw [stepName, if_pos (beq_self_eq_true _), hne,
      List.reverse_reverse, hnew, ← hn]
    rfl
  obtain ⟨l', hl'⟩ :=
    h (⟨some n, items, branches, o.flags⟩ :: groups) [] [] (some name :: names)
    false (by simp [hn]) (fun _ hx => absurd hx List.not_mem_nil)
  simp only [List.append_assoc]
  rw [foldlM_ok hhead, foldlM_ok (foldlM_groupName hname),
    List.singleton_append, foldlM_step hopen, foldlM_ok hl', List.append_nil]
  rfl

/-- The head of a group that does not capture. -/
theorem foldlM_unnamed (groups : List OpenGroup) (branches items : List Item)
    (names : List (Option (List Char))) (l : Bool) :
    "(?:".toList.foldlM step ⟨.items, groups, branches, items, o.flags, names,
      l⟩ = .ok ⟨.items, ⟨none, items, branches, o.flags⟩ :: groups, [], [],
      o.flags, names, false⟩ := rfl

theorem Adds.unnamed (h : Adds o n cs xs new) :
    Adds o n ("(?:".toList ++ cs ++ [')'])
      [{ body := (grouped xs).form, depth := (grouped xs).depth + 1 }] new := by
  intro groups branches items names l hn hfresh
  refine ⟨false, ?_⟩
  obtain ⟨l', hl'⟩ :=
    h (⟨none, items, branches, o.flags⟩ :: groups) [] [] names false hn hfresh
  simp only [List.append_assoc]
  rw [foldlM_ok (foldlM_unnamed _ _ _ _ _), foldlM_ok hl', List.append_nil]
  rfl

/-- A group that does not capture and may be left out. -/
theorem Adds.optional (h : Adds o n cs xs new) :
    Adds o n ("(?:".toList ++ cs ++ ")?".toList)
      [{ body := (grouped xs).form, rounds := some ⟨0, some 1, true⟩,
         depth := (grouped xs).depth + 2 }] new := by
  intro groups branches items names l hn hfresh
  refine ⟨true, ?_⟩
  obtain ⟨l', hl'⟩ :=
    h (⟨none, items, branches, o.flags⟩ :: groups) [] [] names false hn hfresh
  simp only [List.append_assoc]
  rw [foldlM_ok (foldlM_unnamed _ _ _ _ _), foldlM_ok hl', List.append_nil]
  rfl

/-- A group of two branches that does not capture. -/
theorem Adds.either (h : Adds o n cs xs []) (h' : Adds o n ds ys []) :
    Adds o n ("(?:".toList ++ cs ++ ['|'] ++ ds ++ [')'])
      [{ body := .alternative [(grouped xs).form, (grouped ys).form],
         depth := depthOf [grouped ys, grouped xs] + 1 }] [] := by
  intro groups branches items names l hn hfresh
  refine ⟨false, ?_⟩
  obtain ⟨l₁, hl₁⟩ :=
    h (⟨none, items, branches, o.flags⟩ :: groups) [] [] names false hn hfresh
  have hbranch : step ⟨.items, ⟨none, items, branches, o.flags⟩ :: groups, [],
      xs.reverse, o.flags, names, l₁⟩ '|' = .ok ⟨.items, ⟨none, items, branches,
        o.flags⟩ :: groups, [grouped xs], [], o.flags, names, false⟩ := rfl
  obtain ⟨l₂, hl₂⟩ := h' (⟨none, items, branches, o.flags⟩ ::
    groups) [grouped xs] [] names false hn hfresh
  simp only [List.map_nil, List.reverse_nil, List.nil_append,
    List.append_nil] at hl₁ hl₂
  simp only [List.append_assoc]
  rw [foldlM_ok (foldlM_unnamed _ _ _ _ _), foldlM_ok hl₁,
    List.singleton_append, foldlM_step hbranch, foldlM_ok hl₂]
  rfl

/-- A repetition takes the last item. -/
theorem Adds.repeated {c : Char} {lo : Nat} {x : Item}
    (hc : (c, lo) = ('*', 0) ∨ (c, lo) = ('+', 1))
    (h : Adds o n cs [x] new) (hx : x.repeatable = true) :
    Adds o n (cs ++ [c])
      [{ body := x.form, rounds := some ⟨lo, none, true⟩,
         depth := x.depth + 1 }] new := by
  intro groups branches items names l hn hfresh
  refine ⟨true, ?_⟩
  obtain ⟨l', hl'⟩ := h groups branches items names l hn hfresh
  obtain ⟨body, rounds, depth, repeatable⟩ := x
  cases hx
  rw [foldlM_ok hl']
  rcases hc with hc | hc <;> cases hc <;> rfl

/-! ## What items spell -/

/-- The items spell what the expression spells, one after the other. -/
def Means (xs : List Item) (r : Regex) : Prop :=
  Same (chain (xs.map (·.form.regex))) r

theorem Means.append {r s : Regex} (h : Means xs r) (h' : Means ys s) :
    Means (xs ++ ys) (.seq r s) := by
  rw [Means, List.map_append]
  exact (same_chain_append _ _).trans (h.seq h')

theorem means_singleton (x : Item) :
    Means [x] x.form.regex := same_chain_singleton _

theorem means_literals (ds : List Char) :
    Means (ds.map literal) (.text ds) := by
  induction ds with
  | nil => exact Same.refl _
  | cons c ds ih => exact (same_seq_empty _).seq ih

theorem Means.grouped {r : Regex} (h : Means xs r) :
    Same (grouped xs).form.regex r := by
  refine Same.trans ?_ h
  rw [Reader.grouped, ← List.reverse_reverse xs]
  generalize xs.reverse = ys
  rw [List.reverse_reverse]
  fun_cases sequence ys with
  | case1 => exact Same.refl _
  | case2 x => exact (same_seq_empty _).symm
  | case3 =>
      have h := Form.same_sequence (ys.reverse.map Item.form)
      rw [List.map_map] at h
      exact h

theorem depth_grouped {d : Nat} (h : ∀ x ∈ xs, x.depth ≤ d) :
    (grouped xs).depth ≤ d + 1 := by
  have hfold : ∀ (ys : List Item) (m : Nat), m ≤ d → (∀ x ∈ ys, x.depth ≤ d) →
      ys.foldl (fun d y => max d y.depth) m ≤ d := by
    intro ys
    induction ys with
    | nil => exact fun m hm _ => hm
    | cons y ys ih =>
        intro m hm hys
        have hy := hys y List.mem_cons_self
        exact ih _ (Nat.max_le.mpr ⟨hm, hy⟩) fun x hx =>
          hys x (List.mem_cons_of_mem _ hx)
  have hrev : ∀ x ∈ xs.reverse, x.depth ≤ d :=
    fun x hx => h x (List.mem_reverse.mp hx)
  rw [grouped]
  generalize xs.reverse = ys at hrev
  fun_cases sequence ys with
  | case1 => exact Nat.zero_le _
  | case2 x =>
      have := hrev x List.mem_cons_self
      omega
  | case3 =>
      have := hfold ys 0 (Nat.zero_le _) hrev
      show depthOf ys ≤ d + 1
      rw [depthOf]
      omega

/-! ## Pieces -/

/-- Reading the piece adds items that spell what the expression spells, and
these names; the items are not nested deeper than `d`. -/
def Reads (o : Options) (n d : Nat) (cs : List Char) (r : Regex)
    (new : List (List Char)) : Prop :=
  ∃ xs, Adds o n cs xs new ∧ Means xs r ∧ ∀ x ∈ xs, x.depth ≤ d

variable {d : Nat} {r s : Regex}

theorem Reads.mono {d' : Nat} (h : Reads o n d cs r new) (hd : d ≤ d') :
    Reads o n d' cs r new := by
  obtain ⟨xs, hadds, hmeans, hdepth⟩ := h
  exact ⟨xs, hadds, hmeans, fun x hx => Nat.le_trans (hdepth x hx) hd⟩

theorem Reads.same (h : Reads o n d cs r new) (hs : Same r s) :
    Reads o n d cs s new := by
  obtain ⟨xs, hadds, hmeans, hdepth⟩ := h
  exact ⟨xs, hadds, hmeans.trans hs, hdepth⟩

theorem Reads.append (h : Reads o n d cs r new)
    (h' : Reads o (n + new.length) d ds s new') (hnew : ∀ x ∈ new', x ∉ new) :
    Reads o n d (cs ++ ds) (.seq r s) (new ++ new') := by
  obtain ⟨xs, hadds, hmeans, hdepth⟩ := h
  obtain ⟨ys, hadds', hmeans', hdepth'⟩ := h'
  refine ⟨xs ++ ys, hadds.append hadds' hnew, hmeans.append hmeans', ?_⟩
  intro x hx
  rcases List.mem_append.mp hx with hx | hx
  · exact hdepth x hx
  · exact hdepth' x hx

theorem Reads.and (h : Reads o n d cs r new)
    (h' : Reads o (n + new.length) d ds s []) :
    Reads o n d (cs ++ ds) (.seq r s) new := by
  have hboth := h.append h' fun _ hx => absurd hx List.not_mem_nil
  rw [List.append_nil] at hboth
  exact hboth

/-- A piece without names, and then another one. -/
theorem Reads.before (h : Reads o n d cs r []) (h' : Reads o n d ds s new) :
    Reads o n d (cs ++ ds) (.seq r s) new :=
  h.append h' fun _ _ => List.not_mem_nil

theorem reads_nil : Reads o n d [] .empty [] :=
  ⟨[], adds_nil, Same.refl _, fun _ hx => absurd hx List.not_mem_nil⟩

theorem reads_escape (ds : List Char) :
    Reads o n d (escape ds) (.text ds) [] := by
  refine ⟨ds.map literal, adds_escape ds, means_literals ds, ?_⟩
  intro x hx
  obtain ⟨c, -, rfl⟩ := List.mem_map.mp hx
  exact Nat.zero_le _

theorem reads_boundary : Reads o n d ['\\', 'b'] (.look .wordBoundary) [] := by
  refine ⟨[{ body := .look .wordBoundary }], fun _ _ _ _ _ _ _ => ⟨false, rfl⟩,
    means_singleton _, ?_⟩
  intro x hx
  rw [List.mem_singleton.mp hx]
  exact Nat.zero_le _

theorem reads_lineStart (ho : o.multiLine = true) :
    Reads o n d ['^'] (.look .lineStart) [] := by
  refine ⟨[{ body := .look .lineStart }],
    fun groups branches items names l _ _ => ⟨false, ?_⟩,
    means_singleton _, ?_⟩
  · have hstep : step ⟨.items, groups, branches, items, o.flags, names, l⟩ '^' =
        .ok ⟨.items, groups, branches, { body := .look .lineStart } :: items,
          o.flags, names,
          false⟩ := by
      show Except.ok (State.pushAnchor _
        (if o.multiLine then .lineStart else .textStart)) = _
      rw [ho]
      rfl
    rw [foldlM_step hstep]
    rfl
  · intro x hx
    rw [List.mem_singleton.mp hx]
    exact Nat.zero_le _

/-- A repetition of characters. -/
theorem reads_star {k : Nat} {t : CharSet} (hk : k ≤ d)
    (h : Adds o n cs
      [{ body := .set t, rounds := some ⟨0, none, true⟩, depth := k }] []) :
    Reads o n d cs (.star true (.one t)) [] := by
  have hstar : Same (Form.repeated 0 none true (.set t)).regex
      (.star true (.one t)) :=
    Form.same_repeated_star rfl true
  refine ⟨_, h, (means_singleton _).trans hstar, ?_⟩
  intro x hx
  rw [List.mem_singleton.mp hx]
  exact hk

theorem Reads.named {name : List Char} (hname : isName name = true)
    (h : Reads o (n + 1) d cs r []) :
    Reads o n (d + 2) ("(?P<".toList ++ name ++ ['>'] ++ cs ++ [')'])
      (.group n r) [name] := by
  obtain ⟨xs, hadds, hmeans, hdepth⟩ := h
  refine ⟨_, hadds.named hname,
    (means_singleton _).trans (hmeans.grouped.group n), ?_⟩
  intro x hx
  rw [List.mem_singleton.mp hx]
  exact Nat.succ_le_succ (depth_grouped hdepth)

theorem Reads.optional (h : Reads o n d cs r new) :
    Reads o n (d + 3) ("(?:".toList ++ cs ++ ")?".toList)
      (.alt r .empty) new := by
  obtain ⟨xs, hadds, hmeans, hdepth⟩ := h
  refine ⟨_, hadds.optional, ?_, ?_⟩
  · exact (means_singleton _).trans
      ((Form.same_repeated_opt _).trans (hmeans.grouped.alt (Same.refl _)))
  · intro x hx
    rw [List.mem_singleton.mp hx]
    exact Nat.add_le_add_right (depth_grouped hdepth) 2

/-- A pattern that is read piece by piece means what its pieces mean. -/
theorem Reads.parse (h : Reads o 1 d cs r new) (hd : d < maxDepth) :
    ∃ form : Form, Same form.regex r ∧
      Reader.parse o.flags cs = .ok (form, none :: new.map some) := by
  obtain ⟨xs, hadds, hmeans, hdepth⟩ := h
  refine ⟨(grouped xs).form, hmeans.grouped, ?_⟩
  obtain ⟨l, hl⟩ := hadds [] [] [] [none] false rfl (by simp)
  have hdeep : ¬ maxDepth < (grouped xs).depth := by
    have := depth_grouped hdepth
    omega
  rw [Reader.parse]
  show (cs.foldlM step ⟨.items, [], [], [], o.flags, [none], false⟩ >>= _) = _
  rw [hl, List.append_nil]
  show (if maxDepth < (grouped xs).depth then _ else
    Except.ok ((grouped xs).form, ((new.map some).reverse ++ [none]).reverse)) =
      _
  rw [if_neg hdeep]
  simp

end Reader

/-- What is parsed is compiled, unless it is too large. -/
theorem compile_of_parse {source : String} {o : Options} {form : Form}
    {names : List (Option (List Char))}
    (h : Reader.parse o.flags source.toList = .ok (form, names)) :
    compile source o =
      if form.fits then
        .ok ⟨source, o, keptNames form names, .ofRegex (.group 0 form.regex)⟩
      else .error .tooLarge := by
  rw [compile, Reader.read_of_parse h]
  split <;> rfl

end Codemod.Pattern
