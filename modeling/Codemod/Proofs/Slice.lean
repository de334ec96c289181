import Codemod.Pattern.Search

/-!
# Parts of a text

A text is an array of characters, and places count from its front. What the
statements about patterns are about are the parts between two places and the
characters next to them; the lemmas below say how these fit together when a
part is divided.
-/

namespace Codemod

/-- The part of a text between two places. -/
def slice (text : Array Char) (i j : Nat) : List Char :=
  (text.extract i j).toList

theorem slice_append {text : Array Char} {i j k : Nat}
    (hij : i ≤ j) (hjk : j ≤ k) :
    slice text i j ++ slice text j k = slice text i k := by
  rw [slice, slice, slice, ← Array.toList_append, Array.extract_append_extract,
    Nat.min_eq_left hij, Nat.max_eq_right hjk]

theorem slice_zero_size (text : Array Char) :
    slice text 0 text.size = text.toList := by
  rw [slice, Array.extract_size]

@[simp] theorem slice_self (text : Array Char) (i : Nat) :
    slice text i i = [] := by
  simp [slice]

theorem length_slice {text : Array Char} {i j : Nat}
    (hij : i ≤ j) (hj : j ≤ text.size) :
    (slice text i j).length = j - i := by
  rw [slice, Array.length_toList, Array.size_extract]
  omega

theorem slice_succ {text : Array Char} {i : Nat} {c : Char}
    (hc : text[i]? = some c) :
    slice text i (i + 1) = [c] := by
  obtain ⟨hlt, -⟩ := Array.getElem?_eq_some_iff.mp hc
  have hlen : (slice text i (i + 1)).length = 1 := by
    rw [length_slice (Nat.le_succ i) hlt]
    omega
  obtain ⟨d, hd⟩ := List.length_eq_one_iff.mp hlen
  have hget' : (slice text i (i + 1))[0]? = text[i]? := by
    rw [slice, Array.getElem?_toList, Array.getElem?_extract,
      if_pos (by omega), Nat.add_zero]
  rw [hd, hc] at hget'
  rw [hd, Option.some.inj hget']

/-- A part that is not empty begins with the character at its first place. -/
theorem slice_eq_cons {text : Array Char} {i j : Nat}
    (hij : i < j) (hj : j ≤ text.size) :
    ∃ c, text[i]? = some c ∧ slice text i j = c :: slice text (i + 1) j := by
  have hlt : i < text.size := by omega
  refine ⟨text[i], Array.getElem?_eq_getElem hlt, ?_⟩
  rw [← slice_append (Nat.le_succ i) hij,
    slice_succ (Array.getElem?_eq_getElem hlt)]
  rfl

/-- What stands at a place is in every part around it. -/
theorem mem_slice {text : Array Char} {i j k : Nat} {c : Char}
    (hc : text[k]? = some c) (hik : i ≤ k)
    (hkj : k < j) (hj : j ≤ text.size) : c ∈ slice text i j := by
  obtain ⟨d, hd, hcons⟩ := slice_eq_cons hkj hj
  cases hd.symm.trans hc
  rw [← slice_append hik (Nat.le_of_lt hkj), hcons]
  exact List.mem_append_right _ List.mem_cons_self

/-- The character that stands before a part, seen from behind it. -/
theorem getLast?_slice_or {text : Array Char} {i j : Nat}
    (hij : i ≤ j) (hj : j ≤ text.size) :
    (slice text i j).getLast?.or (Pattern.before? text i) =
      Pattern.before? text j := by
  rcases Nat.lt_or_ge i j with hlt | hge
  · have hlast : text[j - 1]? = some text[j - 1] :=
      Array.getElem?_eq_getElem (by omega)
    have hsucc := slice_succ hlast
    rw [Nat.sub_add_cancel (by omega)] at hsucc
    rw [← slice_append (show i ≤ j - 1 by omega) (show j - 1 ≤ j by omega),
      hsucc, List.getLast?_concat, Option.some_or]
    rw [Pattern.before?, if_neg (show ¬ j = 0 by omega), hlast]
  · have : i = j := by omega
    subst this
    rw [slice_self]
    rfl

/-- The character that stands behind a part, seen from before it. -/
theorem head?_slice_or {text : Array Char} {i j : Nat}
    (hij : i ≤ j) (hj : j ≤ text.size) :
    (slice text i j).head?.or text[j]? = text[i]? := by
  rcases Nat.lt_or_ge i j with hlt | hge
  · obtain ⟨c, hc, heq⟩ := slice_eq_cons hlt hj
    rw [heq, hc]
    rfl
  · have : i = j := by omega
    subst this
    rw [slice_self]
    rfl

/-- A part that consists of two words, cut between them. -/
theorem slice_cut {text : Array Char} {i k : Nat} {u v : List Char}
    (hik : i ≤ k) (hk : k ≤ text.size) (hw : slice text i k = u ++ v) :
    i + u.length ≤ k ∧ slice text i (i + u.length) = u ∧
    slice text (i + u.length) k = v ∧ Pattern.before? text (i + u.length) =
        u.getLast?.or (Pattern.before? text i) ∧
      text[i + u.length]? = v.head?.or text[k]? := by
  have hlen := congrArg List.length hw
  rw [length_slice hik hk, List.length_append] at hlen
  have hij : i ≤ i + u.length := by omega
  have hjk : i + u.length ≤ k := by omega
  have hj : i + u.length ≤ text.size := by omega
  rw [← slice_append hij hjk] at hw
  obtain ⟨hu, hv⟩ := List.append_inj hw (by rw [length_slice hij hj]; omega)
  refine ⟨hjk, hu, hv, ?_, ?_⟩
  · rw [← getLast?_slice_or hij hj, hu]
  · rw [← head?_slice_or hjk hk, hv]

end Codemod
