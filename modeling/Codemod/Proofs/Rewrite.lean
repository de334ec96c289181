import Codemod.Proofs.Capture

/-!
# Rewriting a document

What applying a rule does to a document when the meaning of its pattern is
known: every match is a part that the expression spells, the replacements are
made from what it captured, and if they are patches for some other expression,
then a document without matches of that expression stays without them.
-/

namespace Codemod.Rule

open Pattern

/-- The replacements of the matches in a document. -/
def Replaces (r : Rule) (x : Regex) (document : String) (m : Match)
    (s : String) : Prop :=
  ∃ l, Takes document.toList.toArray x m.start m.stop l ∧ m.Has l ∧
    r.produce (r.hit document m) = .ok s

/-- A rule that can make every replacement gives a result. -/
theorem apply_replaces {r : Rule} {x : Regex}
    (hx : r.pattern.Denotes x) {document : String}
    (hmade : ∀ m l, Takes document.toList.toArray x m.start m.stop l → m.Has l →
      ∃ s, r.produce (r.hit document m) = .ok s) :
    ∃ ms rs, r.pattern.Occurrences document.toList.toArray ms ∧
      List.Forall₂ (r.Replaces x document) ms rs ∧
      r.apply document = .ok ⟨String.ofList
        (weave (gaps document.toList.toArray 0 ms) (rs.map String.toList)),
        ms.length⟩ := by
  have hocc : r.pattern.Occurrences document.toList.toArray _ :=
    (allMatches_iff hx.whole).mpr rfl
  have htakes := hx.takes_of_mem hocc
  have hrs : ∀ ms : List Match, (∀ m ∈ ms, ∃ l,
        Takes document.toList.toArray x m.start m.stop l ∧ m.Has l) →
      ∃ rs, List.Forall₂ (r.Replaces x document) ms rs := by
    intro ms
    induction ms with
    | nil => exact fun _ => ⟨[], .nil⟩
    | cons m ms ih =>
        intro hms
        obtain ⟨l, hl, hm⟩ := hms m List.mem_cons_self
        obtain ⟨s, hs⟩ := hmade m l hl hm
        obtain ⟨rs, hrs⟩ := ih fun m' hm' => hms m' (List.mem_cons_of_mem _ hm')
        exact ⟨s :: rs, .cons ⟨l, hl, hm, hs⟩ hrs⟩
  obtain ⟨rs, hrs⟩ := hrs _ htakes
  refine ⟨_, rs, hocc, hrs, ?_⟩
  have hok : List.Forall₂ (fun m s => r.produce (r.hit document m) = .ok s)
      (r.pattern.allMatches document.toList.toArray) rs :=
    hrs.imp fun _ _ ⟨_, _, _, h⟩ => h
  rw [apply_eq, splice_eq_ok hok]
  rfl

/-- What was found and what was made of it, all over a document: the two texts
have the gaps in common. What holds of every match and its replacement can then
be carried over to the whole. -/
theorem apply_weave {r : Rule} {x : Regex}
    (hx : r.pattern.Denotes x) {document : String} {edit : Edit}
    (happly : r.apply document = .ok edit) {R : List Char → List Char → Prop}
    (hmade : ∀ m l, Takes document.toList.toArray x m.start m.stop l → m.Has l →
      ∃ s, r.produce (r.hit document m) = .ok s ∧
      R (m.text document.toList.toArray) s.toList) :
    ∃ gs us vs, gs.length = us.length + 1 ∧ List.Forall₂ R us vs ∧
      document.toList = weave gs us ∧ edit.text.toList = weave gs vs ∧
      edit.replacements = us.length := by
  obtain ⟨ms, rs, hocc, hrs, happly'⟩ := apply_replaces hx fun m l hl hm => by
    obtain ⟨s, hs, -⟩ := hmade m l hl hm
    exact ⟨s, hs⟩
  rw [happly] at happly'
  cases happly'
  refine ⟨gaps document.toList.toArray 0 ms,
    ms.map (·.text document.toList.toArray), rs.map String.toList, ?_, ?_, ?_,
    String.toList_ofList, (List.length_map _).symm⟩
  · rw [length_gaps, List.length_map]
  · rw [List.forall₂_map_left_iff, List.forall₂_map_right_iff]
    refine hrs.imp fun m s ⟨l, hl, hm, hs⟩ => ?_
    obtain ⟨s', hs', hmade⟩ := hmade m l hl hm
    rw [hs] at hs'
    cases hs'
    exact hmade
  · rw [(weave_gaps hocc.ordered).1, slice_zero_size]

/-- A rule whose replacements are patches for an expression leaves nothing that
it spells, if there was nothing before, or if the rule looks for this
expression itself. -/
theorem apply_free {r : Rule} {x q : Regex} (hx : r.pattern.Denotes x)
    (hends : x.outline.endsPlain = true) (hworded : q.worded = true)
    (hclosed : q.closed = true) {document : String}
    (hold : q = x ∨ ∀ i j l, ¬ Takes document.toList.toArray q i j l)
    (hmade : ∀ m l, Takes document.toList.toArray x m.start m.stop l → m.Has l →
      ∃ s, r.produce (r.hit document m) = .ok s ∧ Patch q s.toList) :
    ∃ edit, r.apply document = .ok edit ∧
      ∀ i j l, ¬ Takes edit.text.toList.toArray q i j l := by
  obtain ⟨ms, rs, hocc, hrs, happly⟩ := apply_replaces hx fun m l hl hm => by
    obtain ⟨s, hs, -⟩ := hmade m l hl hm
    exact ⟨s, hs⟩
  refine ⟨_, happly, ?_⟩
  have hgaps : GapsFree q document.toList.toArray 0 ms := by
    rcases hold with rfl | hold
    · exact hx.gapsFree hclosed hocc
    · exact gapsFree_of_not_takes hold 0 ms
  have hpatches : List.Forall₂ (fun (m : Match) s => Patch q s ∧
      Anchor.isWord? (before? document.toList.toArray m.stop) = false) ms
      (rs.map String.toList) := by
    rw [List.forall₂_map_right_iff]
    refine hrs.imp ?_
    rintro m s ⟨l, hl, hm, hs⟩
    obtain ⟨s', hs', hpatch⟩ := hmade m l hl hm
    rw [hs] at hs'
    cases hs'
    refine ⟨hpatch, ?_⟩
    rw [← getLast?_slice_or hl.le hl.le_size]
    exact hl.spells.fits.lastPlain hends _
  have hfree := (sealed_weave hworded hclosed hpatches hocc.ordered hgaps
    (show Anchor.isWord? none = Anchor.isWord? (before? _ 0) from rfl)).free
    hclosed
  intro i j l
  rw [String.toList_ofList]
  exact Free.not_takes (by simpa using hfree)

/-- A rule that finds nothing leaves the document as it is. -/
theorem apply_eq_self {r : Rule} {x : Regex}
    (hx : r.pattern.Denotes x) {document : String}
    (hno : ∀ i j l, ¬ Takes document.toList.toArray x i j l) :
    r.apply document = .ok ⟨document, 0⟩ := by
  have hocc : r.pattern.Occurrences document.toList.toArray [] := by
    refine .nil fun m hm => ?_
    obtain ⟨l, hl, -⟩ := hx.takes_of_first hm
    exact hno _ _ l hl
  rw [apply_eq, (allMatches_iff hx.whole).mp hocc, splice]
  show Except.ok
    (⟨String.ofList (slice document.toList.toArray 0 _), 0⟩ : Edit) = _
  rw [slice_zero_size, String.ofList_toList]

/-- A rule that replaced nothing has found nothing. -/
theorem not_takes_of_replacements {r : Rule} {x : Regex}
    (hx : r.pattern.Denotes x)
    {document : String} {edit : Edit} (happly : r.apply document = .ok edit)
    (hzero : edit.replacements = 0) (i j : Nat) (l : Marks) :
    ¬ Takes document.toList.toArray x i j l := by
  have hocc : r.pattern.Occurrences document.toList.toArray _ :=
    (allMatches_iff hx.whole).mpr rfl
  have hnil : r.pattern.allMatches document.toList.toArray = [] := by
    rw [apply_eq] at happly
    cases hsplice :
      splice document.toList.toArray (fun m => r.produce (r.hit document m)) 0
        (r.pattern.allMatches document.toList.toArray) with
    | error e =>
        rw [hsplice] at happly
        cases happly
    | ok text =>
        rw [hsplice] at happly
        cases happly
        exact List.eq_nil_of_length_eq_zero hzero
  rw [hnil] at hocc
  cases hocc with
  | nil hno => exact hx.no_first hno i j l (Nat.zero_le i)

theorem text_of_replacements {r : Rule} {x : Regex}
    (hx : r.pattern.Denotes x) {document : String} {edit : Edit}
    (happly : r.apply document = .ok edit) (hzero : edit.replacements = 0) :
    edit.text = document := by
  have hself := apply_eq_self hx (not_takes_of_replacements hx happly hzero)
  rw [happly] at hself
  cases hself
  rfl

end Codemod.Rule
