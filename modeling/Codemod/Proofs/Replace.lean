import Codemod.Proofs.Scan
import Codemod.Proofs.Slice
import Codemod.Rule
import Mathlib.Data.List.Forall2

/-!
# Replacing all matches

Applying a rule is find and replace: the document falls into the matches of the
pattern and the gaps around them, and the matches give way to their
replacements. The document is cut between characters, since it is a list of
characters. The first match whose replacement cannot be made decides that there
is no result.
-/

namespace Codemod

/-- Gaps and what stands between them, in turn; there is one gap more than
there are things between them. -/
def weave : List (List Char) → List (List Char) → List Char
  | g :: gs, r :: rs => g ++ r ++ weave gs rs
  | gs, [] => gs.flatten
  | [], _ :: _ => []

namespace Pattern

/-- What stands before, between and after the matches, from `last` on. -/
def gaps (text : Array Char) : Nat → List Match → List (List Char)
  | last, [] => [slice text last text.size]
  | last, m :: ms => slice text last m.start :: gaps text m.stop ms

theorem length_gaps (text : Array Char) : ∀ (last : Nat) (ms : List Match),
    (gaps text last ms).length = ms.length + 1
  | _, [] => rfl
  | _, m :: ms => congrArg (· + 1) (length_gaps text m.stop ms)

/-- The text that was matched. -/
def Match.text (text : Array Char) (m : Match) : List Char :=
  slice text m.start m.stop

/-- Matches from `last` on follow each other within the text. -/
def Ordered (text : Array Char) : Nat → List Match → Prop
  | last, [] => last ≤ text.size
  | last, m :: ms => last ≤ m.start ∧ m.start ≤ m.stop ∧ Ordered text m.stop ms

theorem Sequel.ordered {p : Pattern} {text : Array Char} {last : Nat}
    {ms : List Match} (h : p.Sequel text last ms) (hlast : last ≤ text.size) :
    Ordered text last ms := by
  induction h with
  | nil _ => exact hlast
  | cons hm _ ih =>
      obtain ⟨hstart, -, hsize⟩ := hm.lt_stop
      refine ⟨hstart, ?_, ih hsize⟩
      obtain ⟨m₀, h₀, hm⟩ := hm
      split at hm
      · exact hm.le_stop.1
      · rw [hm]
        exact h₀.le_stop.1

theorem Occurrences.ordered {p : Pattern} {text : Array Char} {ms : List Match}
    (h : p.Occurrences text ms) : Ordered text 0 ms := by
  cases h with
  | nil _ => exact Nat.zero_le _
  | cons hm hms => exact ⟨hm.le_start, hm.le_stop.1, hms.ordered hm.le_stop.2⟩

/-- Gaps and matches in turn are the text. -/
theorem weave_gaps {text : Array Char} {last : Nat} {ms : List Match}
    (h : Ordered text last ms) :
    weave (gaps text last ms) (ms.map (·.text text)) =
      slice text last text.size ∧ last ≤ text.size := by
  induction ms generalizing last with
  | nil => exact ⟨List.append_nil _, h⟩
  | cons m ms ih =>
      obtain ⟨hstart, hstop, hms⟩ := h
      obtain ⟨hw, hsize⟩ := ih hms
      refine ⟨?_, by omega⟩
      rw [gaps, List.map_cons, weave, hw, Match.text, slice_append hstart hstop,
        slice_append (by omega) hsize]

end Pattern

namespace Rule

open Pattern

theorem splice_eq_ok {text : Array Char} {produce : Match → Except Error String}
    {last : Nat} {ms : List Match} {rs : List String}
    (h : List.Forall₂ (fun m r => produce m = .ok r) ms rs) :
    splice text produce last ms =
      .ok (weave (gaps text last ms) (rs.map String.toList)) := by
  induction h generalizing last with
  | nil =>
      show Except.ok (slice text last text.size) =
        .ok (slice text last text.size ++ [])
      rw [List.append_nil]
  | cons hm _ ih =>
      rw [splice, hm, gaps, List.map_cons, weave]
      show (do
        let rest ← splice text produce _ _
        return slice text last _ ++ _ ++ rest) = _
      rw [ih]
      rfl

theorem splice_eq_error {text : Array Char}
    {produce : Match → Except Error String} {last : Nat}
    {front back : List Match} {m : Match} {e : Error}
    (hfront : ∀ m' ∈ front, ∃ r, produce m' = .ok r)
    (hm : produce m = .error e) :
    splice text produce last (front ++ m :: back) = .error e := by
  induction front generalizing last with
  | nil =>
      rw [List.nil_append, splice, hm]
      rfl
  | cons m' front ih =>
      obtain ⟨r, hr⟩ := hfront m' List.mem_cons_self
      rw [List.cons_append, splice, hr]
      show (do
        let rest ← splice text produce _ _
        return slice text last _ ++ _ ++ rest) = _
      rw [ih fun m'' hm'' => hfront m'' (List.mem_cons_of_mem _ hm'')]
      rfl

theorem produce_of_splice {text : Array Char}
    {produce : Match → Except Error String} {last : Nat} {ms : List Match}
    {w : List Char} (h : splice text produce last ms = .ok w) :
    ∃ rs, List.Forall₂ (fun m r => produce m = .ok r) ms rs := by
  induction ms generalizing last w with
  | nil => exact ⟨[], .nil⟩
  | cons m ms ih =>
      rw [splice] at h
      cases hm : produce m with
      | error e =>
          rw [hm] at h
          cases h
      | ok r =>
          rw [hm] at h
          cases hrest : splice text produce m.stop ms with
          | error e =>
              replace h : (splice text produce m.stop ms >>= fun rest =>
                pure (slice text last m.start ++ r.toList ++ rest)) = .ok w := h
              rw [hrest] at h
              cases h
          | ok rest =>
              obtain ⟨rs, hrs⟩ := ih hrest
              exact ⟨r :: rs, .cons hm hrs⟩

theorem compile_eq_ok {name source : String} {options : Options}
    {produce : Hit → Except Error String} {r : Rule}
    (h : Rule.compile name source options produce = .ok r) :
    ∃ p, Pattern.compile source options = .ok p ∧ r = ⟨name, p, produce⟩ := by
  rw [compile] at h
  cases hp : Pattern.compile source options with
  | error e => rw [hp] at h; cases h
  | ok p =>
      rw [hp] at h
      cases h
      exact ⟨p, rfl, rfl⟩

/-- A match in a document, as the maker of its replacement sees it. -/
def hit (r : Rule) (document : String) (m : Match) : Hit :=
  { rule := r.name, pattern := r.pattern, document := document.toList.toArray,
    found := m, lineEnding := .of document.toList }

theorem apply_eq (r : Rule) (document : String) :
    r.apply document =
      (splice document.toList.toArray (fun m => r.produce (r.hit document m)) 0
          (r.pattern.allMatches document.toList.toArray)).map
        fun text => ⟨String.ofList text,
          (r.pattern.allMatches document.toList.toArray).length⟩ := by
  rw [apply]
  show (do
    let text ← splice document.toList.toArray
      (fun m => r.produce (r.hit document m)) 0 _
    return (⟨String.ofList text, _⟩ : Edit)) = _
  cases splice document.toList.toArray (fun m => r.produce (r.hit document m)) 0
    (r.pattern.allMatches document.toList.toArray) <;> rfl

/-- A rule that gives a result has found its matches and made a replacement for
each of them. -/
theorem weave_of_apply {r : Rule} {document : String} {edit : Edit}
    (h : r.apply document = .ok edit) :
    ∃ rs, List.Forall₂ (fun m s => r.produce (r.hit document m) = .ok s)
        (r.pattern.allMatches document.toList.toArray) rs ∧
      edit = ⟨String.ofList (weave (gaps document.toList.toArray 0
        (r.pattern.allMatches document.toList.toArray)) (rs.map String.toList)),
        (r.pattern.allMatches document.toList.toArray).length⟩ := by
  rw [apply_eq] at h
  cases hsplice :
    splice document.toList.toArray (fun m => r.produce (r.hit document m)) 0
      (r.pattern.allMatches document.toList.toArray) with
  | error e =>
      rw [hsplice] at h
      cases h
  | ok w =>
      rw [hsplice] at h
      obtain ⟨rs, hrs⟩ := produce_of_splice hsplice
      rw [splice_eq_ok hrs] at hsplice
      cases hsplice
      cases h
      exact ⟨rs, hrs, rfl⟩

end Rule

end Codemod
