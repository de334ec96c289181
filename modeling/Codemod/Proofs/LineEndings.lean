import Codemod.Proofs.Replace
import Mathlib.Data.List.Infix

/-!
# Line endings

A text has Windows line endings if a carriage return stands before every line
feed. That can be asked of parts of a text, if it is known what stands before a
part: `Crlf`. When parts of a text are replaced, what is kept brings its
carriage returns along, unless a part that was replaced ended with one. So the
new text has such line endings if and only if all that was put in has them
(`crlf_weave`).
-/

namespace Codemod

open Pattern

theorem hasCrlf_iff {cs : List Char} :
    hasCrlf cs = true ↔ ['\r', '\n'] <:+: cs := by
  fun_induction hasCrlf cs with
  | case1 cs => exact ⟨fun _ => ⟨[], cs, rfl⟩, fun _ => rfl⟩
  | case2 c cs hne ih =>
      rw [ih, List.infix_cons_iff]
      constructor
      · exact .inr
      · rintro (h | h)
        · obtain ⟨s, hs⟩ := h
          cases hs
          exact absurd rfl (hne s rfl)
        · exact h
  | case3 => simp

/-- The characters of the line ending that is used in a document. -/
theorem lineEnding_text (cs : List Char) : (LineEnding.of cs).text.toList =
    if ['\r', '\n'] <:+: cs then ['\r', '\n'] else ['\n'] := by
  by_cases h : ['\r', '\n'] <:+: cs
  · rw [if_pos h, LineEnding.of, if_pos (hasCrlf_iff.mpr h)]
    rfl
  · rw [if_neg h, LineEnding.of, if_neg fun hcrlf => h (hasCrlf_iff.mp hcrlf)]
    rfl

/-- A carriage return stands before every line feed of the text; `b` stands
before the text. -/
def Crlf (b : Option Char) (w : List Char) : Prop :=
  ∀ u v, w = u ++ '\n' :: v → u.getLast?.or b = some '\r'

section

variable {b b' : Option Char} {u v w : List Char}

theorem crlf_append :
    Crlf b (u ++ v) ↔ Crlf b u ∧ Crlf (u.getLast?.or b) v := by
  constructor
  · refine fun h => ⟨fun x y heq => h x (y ++ v) ?_, fun x y heq => ?_⟩
    · rw [heq, List.append_assoc, List.cons_append]
    · have hfeed := h (u ++ x) y (by rw [heq, List.append_assoc])
      rw [List.getLast?_append, Option.or_assoc] at hfeed
      exact hfeed
  · rintro ⟨hu, hv⟩ x y heq
    rcases List.append_eq_append_iff.mp heq with ⟨z, rfl, rfl⟩ | ⟨z, rfl, hz⟩
    · rw [List.getLast?_append, Option.or_assoc]
      exact hv z y rfl
    · cases z with
      | nil =>
          have hfeed := hv [] y hz.symm
          rw [List.append_nil] at hfeed
          exact hfeed
      | cons c z =>
          obtain ⟨rfl, -⟩ := List.cons.inj hz
          exact hu x z rfl

theorem crlf_of_not_mem (h : '\n' ∉ w) : Crlf b w := by
  rintro u v rfl
  exact absurd (List.mem_append_right _ List.mem_cons_self) h

/-- What stands before a text only matters to a line feed at its front. -/
theorem Crlf.moved (h : Crlf b w) (hhead : w.head? ≠ some '\n') :
    Crlf b' w := by
  intro u v heq
  obtain ⟨c, hc⟩ : ∃ c, u.getLast? = some c := by
    refine Option.isSome_iff_exists.mp (List.getLast?_isSome.mpr ?_)
    rintro rfl
    exact hhead (by rw [heq]; rfl)
  have hfeed := h u v heq
  rw [hc] at hfeed ⊢
  exact hfeed

theorem crlf_moved_iff (hhead : w.head? ≠ some '\n') : Crlf b w ↔ Crlf b' w :=
  ⟨fun h => h.moved hhead, fun h => h.moved hhead⟩

theorem crlf_feed_iff : Crlf b ['\n'] ↔ b = some '\r' := by
  refine ⟨fun h => h [] [] rfl, fun h u v heq => ?_⟩
  cases u with
  | nil => exact h
  | cons c u => cases u <;> cases heq

theorem crlf_crlf : Crlf b ['\r', '\n'] :=
  crlf_append.mpr ⟨crlf_of_not_mem (w := ['\r']) (by decide),
    crlf_feed_iff.mpr rfl⟩

/-- A text with a line feed has a line ending with a carriage return. -/
theorem Crlf.has_ending (h : Crlf none w) (hfeed : '\n' ∈ w) :
    ['\r', '\n'] <:+: w := by
  obtain ⟨u, v, rfl⟩ := List.append_of_mem hfeed
  have hlast := h u v rfl
  rw [Option.or_none] at hlast
  obtain ⟨u, rfl⟩ := List.getLast?_eq_some_iff.mp hlast
  exact ⟨u, v, by simp⟩

/-- The line ending that is used in such a text. -/
theorem Crlf.lineEnding (h : Crlf none w) : (LineEnding.of w).text.toList =
    if '\n' ∈ w then ['\r', '\n'] else ['\n'] := by
  rw [lineEnding_text]
  by_cases hfeed : '\n' ∈ w
  · rw [if_pos hfeed, if_pos (h.has_ending hfeed)]
  · rw [if_neg hfeed, if_neg fun hends => hfeed (hends.subset (by decide))]

end

/-! ## Replacing parts of a text -/

section

variable {text : Array Char} {i j : Nat}

theorem crlf_slice (htext : Crlf none text.toList)
    (hij : i ≤ j) (hj : j ≤ text.size) :
    Crlf (before? text i) (slice text i j) := by
  have hi : i ≤ text.size := by omega
  rw [← slice_zero_size, ← slice_append (Nat.zero_le i) hi,
    ← slice_append hij hj] at htext
  have hpart := (crlf_append.mp (crlf_append.mp htext).2).1
  have hbefore : (slice text 0 i).getLast?.or none = before? text i :=
    getLast?_slice_or (Nat.zero_le i) hi
  rw [hbefore] at hpart
  exact hpart

/-- Behind something else than a carriage return no line begins. -/
theorem crlf_slice_moved (htext : Crlf none text.toList)
    (hij : i ≤ j) (hj : j ≤ text.size)
    (hbefore : before? text i ≠ some '\r') (b : Option Char) :
    Crlf b (slice text i j) := by
  have hpart := crlf_slice htext hij hj
  refine hpart.moved fun hhead => ?_
  obtain ⟨v, hv⟩ := List.head?_eq_some_iff.mp hhead
  exact hbefore (hpart [] v hv)

/-- Replacing parts of a text keeps its line endings exactly if all that is put
in has such line endings. Neither the new text nor what is kept behind it
begins with a line feed that would need a carriage return from before. -/
theorem crlf_weave (htext : Crlf none text.toList)
    {ms : List Match} {rs : List (List Char)} (h : List.Forall₂
      (fun m s => before? text m.stop ≠ some '\r' ∧ s.head? ≠ some '\n') ms rs)
    {last : Nat} (hord : Ordered text last ms) {b : Option Char}
    (hlast : ∀ j, last ≤ j → j ≤ text.size → Crlf b (slice text last j)) :
    Crlf b (weave (gaps text last ms) rs) ↔ ∀ s ∈ rs, Crlf none s := by
  induction h generalizing last b with
  | nil =>
      rw [gaps, weave, List.flatten_singleton]
      exact iff_of_true (hlast _ hord (Nat.le_refl _)) (List.forall_mem_nil _)
  | @cons m s ms rs hm _ ih =>
      obtain ⟨hstart, hstop, hms⟩ := hord
      have hsize := (weave_gaps hms).2
      have hgap : Crlf b (slice text last m.start) := hlast _ hstart (by omega)
      have hmade : ∀ b, Crlf b s ↔ Crlf none s := fun b => crlf_moved_iff hm.2
      rw [gaps, weave, crlf_append, crlf_append, List.forall_mem_cons,
        ih hms fun j hj hj' => crlf_slice_moved htext hj hj' hm.1 _, hmade]
      exact and_congr_left fun _ => and_iff_right hgap

end

end Codemod
