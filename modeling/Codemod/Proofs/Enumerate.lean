import Codemod.Proofs.Rewrite

/-!
# Listing what an expression takes

The search cannot be run inside a proof, and for a fixed document it need not
be: `Regex.taken` lists all parts of a text that an expression takes from a
place on, with their marks, by recursion on the expression. `mem_taken_iff`
says that the list is complete, as long as no body that is repeated may be
empty. A document in which an expression takes one part only has one match, and
applying a rule to it replaces this part.
-/

namespace Codemod.Pattern

/-- The expression may spell the empty word. -/
def Regex.mayBeEmpty : Regex → Bool
  | .empty | .look _ | .star _ _ => true
  | .one _ => false
  | .group _ r | .plus _ r => r.mayBeEmpty
  | .seq r s => r.mayBeEmpty && s.mayBeEmpty
  | .alt r s => r.mayBeEmpty || s.mayBeEmpty

/-- Every body that is repeated spells at least one character. -/
def Regex.solid : Regex → Bool
  | .empty | .look _ | .one _ => true
  | .group _ r => r.solid
  | .seq r s | .alt r s => r.solid && s.solid
  | .star _ r | .plus _ r => !r.mayBeEmpty && r.solid

theorem Spells.mayBeEmpty {r : Regex} {i : Nat}
    {b a : Option Char} {w : List Char} {ms : Marks}
    (h : Spells r i b w a ms) (hw : w = []) : r.mayBeEmpty = true := by
  induction h with
  | empty | look | stop | round => rfl
  | one => cases hw
  | group _ _ ih => exact ih hw
  | seq _ _ ih ih' =>
      obtain ⟨hu, hv⟩ := List.append_eq_nil_iff.mp hw
      rw [Regex.mayBeEmpty, ih hu, ih' hv]
      rfl
  | altLeft _ ih =>
      rw [Regex.mayBeEmpty, ih hw]
      rfl
  | altRight _ ih =>
      rw [Regex.mayBeEmpty, ih hw, Bool.or_true]
  | plus _ _ ih _ => exact ih (List.append_eq_nil_iff.mp hw).1

/-- A place of a text: its number, the character before it, and the characters
behind it. -/
structure Spot where
  place : Nat
  before : Option Char
  rest : List Char

/-- At most `n` rounds of a body, from a spot on. -/
def rounds (body : Spot → List (Spot × Marks)) :
    Nat → Spot → List (Spot × Marks)
  | 0, s => [(s, [])]
  | n + 1, s =>
    (s, []) :: (body s).flatMap fun x => (rounds body n x.1).map fun y =>
      (y.1, x.2 ++ y.2)

/-- Where the expression can get to from a spot, and the marks that are made on
the way. -/
def Regex.taken : Regex → Spot → List (Spot × Marks)
  | .empty, s => [(s, [])]
  | .one x, s =>
    match s.rest with
    | [] => []
    | c :: cs => if x.has c then [(⟨s.place + 1, some c, cs⟩, [])] else []
  | .look x, s => if x.holds s.before s.rest.head? then [(s, [])] else []
  | .group g r, s =>
    (r.taken s).map fun x =>
      (x.1, (2 * g, s.place) :: (x.2 ++ [(2 * g + 1, x.1.place)]))
  | .seq r q, s =>
      (r.taken s).flatMap fun x => (q.taken x.1).map fun y => (y.1, x.2 ++ y.2)
  | .alt r q, s => r.taken s ++ q.taken s
  | .star _ r, s => rounds r.taken s.rest.length s
  | .plus _ r, s =>
    (r.taken s).flatMap fun x =>
      (rounds r.taken x.1.rest.length x.1).map fun y => (y.1, x.2 ++ y.2)

/-- The expression spells what stands between two spots. -/
def Goes (r : Regex) (s t : Spot) (l : Marks) : Prop :=
  ∃ w, s.rest = w ++ t.rest ∧ t.place = s.place + w.length ∧
    t.before = w.getLast?.or s.before ∧
    Spells r s.place s.before w t.rest.head? l

section

variable {r q : Regex} {s t u : Spot} {l : Marks}

theorem goes_stay (hr : ∀ {b a : Option Char} {i : Nat} {w : List Char},
      Spells r i b w a l → w = []) :
    Goes r s t l ↔ t = s ∧ Spells r s.place s.before [] s.rest.head? l := by
  constructor
  · rintro ⟨w, hrest, hplace, hbefore, h⟩
    obtain rfl := hr h
    cases s
    cases t
    cases hrest
    cases hplace
    cases hbefore
    exact ⟨rfl, h⟩
  · rintro ⟨rfl, h⟩
    exact ⟨[], rfl, rfl, rfl, h⟩

theorem goes_seq : Goes (.seq r q) s u l ↔
    ∃ t ms ns, Goes r s t ms ∧ Goes q t u ns ∧ l = ms ++ ns := by
  constructor
  · rintro ⟨w, hrest, hplace, hbefore, h⟩
    obtain ⟨x, y, ms, ns, hr, hq, rfl, rfl⟩ := spells_seq.mp h
    refine ⟨⟨s.place + x.length, x.getLast?.or s.before, y ++ u.rest⟩, ms, ns,
      ⟨x, by rw [hrest, List.append_assoc], rfl, rfl, ?_⟩,
      ⟨y, rfl, ?_, ?_, hq⟩, rfl⟩
    · rw [List.head?_append]
      exact hr
    · rw [hplace, List.length_append, Nat.add_assoc]
    · rw [hbefore, List.getLast?_append, Option.or_assoc]
  · rintro ⟨t, ms, ns, ⟨x, hrest, hplace, hbefore, hr⟩,
      ⟨y, hrest', hplace', hbefore', hq⟩, rfl⟩
    refine ⟨x ++ y, ?_, ?_, ?_, spells_seq.mpr ⟨x, y, ms, ns, ?_, ?_, rfl, rfl⟩⟩
    · rw [hrest, hrest', List.append_assoc]
    · rw [hplace', hplace, List.length_append, Nat.add_assoc]
    · rw [hbefore', hbefore, List.getLast?_append, Option.or_assoc]
    · rw [← List.head?_append, ← hrest']
      exact hr
    · rw [← hplace, ← hbefore]
      exact hq

/-- Going on from all that was listed, one expression follows the other. -/
theorem mem_flatMap_iff {f g : Spot → List (Spot × Marks)}
    (hf : ∀ {t ms}, (t, ms) ∈ f s ↔ Goes r s t ms)
    (hg : ∀ {t u ms ns}, Goes r s t ms → ((u, ns) ∈ g t ↔ Goes q t u ns)) :
    (u, l) ∈ (f s).flatMap (fun x => (g x.1).map fun y => (y.1, x.2 ++ y.2)) ↔
      Goes (.seq r q) s u l := by
  rw [List.mem_flatMap, goes_seq]
  constructor
  · rintro ⟨⟨t, ms⟩, hx, hmap⟩
    obtain ⟨⟨u, ns⟩, hy, heq⟩ := List.mem_map.mp hmap
    cases heq
    have hr := hf.mp hx
    exact ⟨t, ms, ns, hr, (hg hr).mp hy, rfl⟩
  · rintro ⟨t, ms, ns, hr, hq, rfl⟩
    exact ⟨(t, ms), hf.mpr hr, List.mem_map.mpr ⟨(u, ns), (hg hr).mpr hq, rfl⟩⟩

theorem goes_star {greedy : Bool} : Goes (.star greedy r) s t l ↔
    (t, l) = (s, []) ∨ Goes (.seq r (.star greedy r)) s t l := by
  have hstay : (t, l) = (s, []) ↔ Goes .empty s t l := by
    rw [goes_stay fun h => (spells_empty.mp h).1, spells_empty, Prod.mk.injEq,
      eq_self, true_and]
  rw [hstay]
  constructor
  · rintro ⟨w, hrest, hplace, hbefore, h⟩
    exact (spells_star.mp h).imp
      (fun h => ⟨w, hrest, hplace, hbefore, spells_empty.mpr h⟩)
      fun h => ⟨w, hrest, hplace, hbefore, h⟩
  · rintro (⟨w, hrest, hplace, hbefore, h⟩ | ⟨w, hrest, hplace, hbefore, h⟩)
    · exact ⟨w, hrest, hplace, hbefore,
        spells_star.mpr (.inl (spells_empty.mp h))⟩
    · exact ⟨w, hrest, hplace, hbefore, spells_star.mpr (.inr h)⟩

theorem Goes.length_lt (h : Goes r s t l) (hr : r.mayBeEmpty = false) :
    t.rest.length < s.rest.length := by
  obtain ⟨w, hrest, -, -, h⟩ := h
  rw [hrest, List.length_append]
  cases w with
  | nil =>
      rw [h.mayBeEmpty rfl] at hr
      cases hr
  | cons c w =>
      rw [List.length_cons]
      omega

/-- There are no more rounds than there are characters left. -/
theorem mem_rounds_iff {greedy : Bool} {body : Spot → List (Spot × Marks)}
    {n : Nat} (hbody : ∀ {s t ms}, (t, ms) ∈ body s ↔ Goes r s t ms)
    (hr : r.mayBeEmpty = false) (hn : s.rest.length ≤ n) :
    (t, l) ∈ rounds body n s ↔ Goes (.star greedy r) s t l := by
  induction n generalizing s t l with
  | zero =>
      rw [rounds, List.mem_singleton, goes_star]
      refine ⟨.inl, Or.rec id fun h => ?_⟩
      obtain ⟨u, ms, ns, hround, -, -⟩ := goes_seq.mp h
      have hlt := hround.length_lt hr
      omega
  | succ n ih =>
      rw [rounds, List.mem_cons, goes_star]
      refine or_congr Iff.rfl
        (mem_flatMap_iff hbody fun {t u ms ns} hround => ?_)
      have hlt := hround.length_lt hr
      exact ih (by omega)

/-- All that the expression can get to is listed, and nothing else. -/
theorem mem_taken_iff (hr : r.solid = true) :
    (t, l) ∈ r.taken s ↔ Goes r s t l := by
  induction r generalizing s t l with
  | empty =>
      rw [Regex.taken, List.mem_singleton, goes_stay fun h =>
        (spells_empty.mp h).1, spells_empty, Prod.mk.injEq, eq_self, true_and]
  | one x =>
      rw [Regex.taken]
      constructor
      · intro hmem
        split at hmem
        · cases hmem
        · next c cs hrest =>
            split at hmem
            · next hx =>
                cases List.mem_singleton.mp hmem
                exact ⟨[c], hrest, rfl, rfl, .one hx⟩
            · cases hmem
      · rintro ⟨w, hrest, hplace, hbefore, h⟩
        obtain ⟨c, hx, rfl, rfl⟩ := spells_one.mp h
        obtain ⟨j, b, cs⟩ := t
        cases hplace
        cases hbefore
        rw [hrest]
        simp [hx]
  | look x =>
      rw [Regex.taken, goes_stay fun h => (spells_look.mp h).2.1, spells_look]
      split
      · next hx => simp [hx]
      · next hx => simp [hx]
  | group g r ih =>
      rw [Regex.taken, List.mem_map]
      constructor
      · rintro ⟨⟨t, ms⟩, hmem, heq⟩
        cases heq
        obtain ⟨w, hrest, hplace, hbefore, h⟩ := (ih hr).mp hmem
        refine ⟨w, hrest, hplace, hbefore, ?_⟩
        rw [hplace]
        exact .group g h
      · rintro ⟨w, hrest, hplace, hbefore, h⟩
        obtain ⟨ms, hbody, rfl⟩ := spells_group.mp h
        exact ⟨(t, ms),
          (ih hr).mpr ⟨w, hrest, hplace, hbefore, hbody⟩, by rw [hplace]⟩
  | seq r q ihr ihq =>
      rw [Regex.solid, Bool.and_eq_true] at hr
      exact mem_flatMap_iff (ihr hr.1) fun _ => ihq hr.2
  | alt r q ihr ihq =>
      rw [Regex.solid, Bool.and_eq_true] at hr
      rw [Regex.taken, List.mem_append, ihr hr.1, ihq hr.2]
      simp only [Goes, spells_alt, ← exists_or, ← and_or_left]
  | star greedy r ih =>
      rw [Regex.solid, Bool.and_eq_true, Bool.not_eq_true'] at hr
      exact mem_rounds_iff (ih hr.2) hr.1 (Nat.le_refl _)
  | plus greedy r ih =>
      rw [Regex.solid, Bool.and_eq_true, Bool.not_eq_true'] at hr
      have hplus : Goes (.plus greedy r) s t l ↔
          Goes (.seq r (.star greedy r)) s t l := by
        simp only [Goes, spells_plus]
      rw [hplus]
      exact mem_flatMap_iff (ih hr.2) fun _ =>
        mem_rounds_iff (ih hr.2) hr.1 (Nat.le_refl _)

end

/-- All that the expression takes from a place on: where it begins and ends,
and the marks. -/
def Regex.allTaken (r : Regex) (i : Nat) (b : Option Char) :
    List Char → List (Nat × Nat × Marks)
  | [] => (r.taken ⟨i, b, []⟩).map fun x => (i, x.1.place, x.2)
  | c :: cs =>
    (r.taken ⟨i, b, c :: cs⟩).map (fun x => (i, x.1.place, x.2)) ++ r.allTaken
      (i + 1) (some c) cs

section

variable {text : Array Char} {r : Regex} {i j k : Nat} {l : Marks}

/-- The spot at a place of a text. -/
def spot (text : Array Char) (i : Nat) :
    Spot := ⟨i, before? text i, slice text i text.size⟩

theorem head?_slice_size (hi : i ≤ text.size) :
    (slice text i text.size).head? = text[i]? := by
  have hhead := head?_slice_or hi (Nat.le_refl _)
  rw [Array.getElem?_eq_none (Nat.le_refl _), Option.or_none] at hhead
  exact hhead

theorem goes_spot_iff (hi : i ≤ text.size) :
    (∃ t, Goes r (spot text i) t l ∧ t.place = j) ↔ Takes text r i j l := by
  constructor
  · rintro ⟨t, ⟨w, hrest, hplace, -, h⟩, rfl⟩
    obtain ⟨hle, hw, ht, -, -⟩ := slice_cut hi (Nat.le_refl _) hrest
    rw [show t.place = i + w.length from hplace]
    refine ⟨Nat.le_add_right _ _, hle, ?_⟩
    rw [← ht, head?_slice_size hle] at h
    rw [hw]
    exact h
  · intro h
    refine ⟨spot text j, ⟨slice text i j, ?_, ?_, ?_, ?_⟩, rfl⟩
    · exact (slice_append h.le h.le_size).symm
    · rw [length_slice h.le h.le_size]
      exact (Nat.add_sub_cancel' h.le).symm
    · exact (getLast?_slice_or h.le h.le_size).symm
    · show Spells r i _ _ (slice text j text.size).head? l
      rw [head?_slice_size h.le_size]
      exact h.spells

theorem mem_map_taken_iff (hr : r.solid = true) (hi : i ≤ text.size) :
    (k, j, l) ∈ (r.taken (spot text i)).map (fun x => (i, x.1.place, x.2)) ↔
      k = i ∧ Takes text r i j l := by
  rw [List.mem_map, ← goes_spot_iff hi]
  constructor
  · rintro ⟨⟨t, ms⟩, hmem, heq⟩
    cases heq
    exact ⟨rfl, t, (mem_taken_iff hr).mp hmem, rfl⟩
  · rintro ⟨rfl, t, h, rfl⟩
    exact ⟨(t, l), (mem_taken_iff hr).mpr h, rfl⟩

theorem mem_allTaken_slice_iff (hr : r.solid = true)
    (hi : i ≤ text.size) {cs : List Char} (hcs : slice text i text.size = cs) :
    (k, j, l) ∈ r.allTaken i (before? text i) cs ↔
    i ≤ k ∧ Takes text r k j l := by
  induction cs generalizing i with
  | nil =>
      have hhere := mem_map_taken_iff (k := k) (j := j) (l := l) hr hi
      rw [spot, hcs] at hhere
      have hlen := length_slice hi (Nat.le_refl _)
      rw [hcs, List.length_nil] at hlen
      rw [Regex.allTaken, hhere]
      constructor
      · rintro ⟨rfl, h⟩
        exact ⟨Nat.le_refl k, h⟩
      · rintro ⟨hle, h⟩
        have hk := Nat.le_trans h.le h.le_size
        have : k = i := by omega
        subst this
        exact ⟨rfl, h⟩
  | cons c cs ih =>
      have hhere := mem_map_taken_iff (k := k) (j := j) (l := l) hr hi
      rw [spot, hcs] at hhere
      have hlen := length_slice hi (Nat.le_refl _)
      rw [hcs, List.length_cons] at hlen
      obtain ⟨d, hd, heq⟩ :=
        slice_eq_cons (show i < text.size by omega) (Nat.le_refl _)
      rw [hcs] at heq
      obtain ⟨rfl, hrest⟩ := List.cons.inj heq
      have hbefore : before? text (i + 1) = some c := hd
      have hnext := ih (show i + 1 ≤ text.size by omega) hrest.symm
      rw [Regex.allTaken, List.mem_append, hhere, ← hbefore, hnext]
      constructor
      · rintro (⟨rfl, h⟩ | ⟨hle, h⟩)
        · exact ⟨Nat.le_refl k, h⟩
        · exact ⟨by omega, h⟩
      · rintro ⟨hle, h⟩
        by_cases hk : k = i
        · subst hk
          exact .inl ⟨rfl, h⟩
        · exact .inr ⟨by omega, h⟩

/-- All that the expression takes in a text is listed, and nothing else. -/
theorem mem_allTaken_iff (hr : r.solid = true) :
    (i, j, l) ∈ r.allTaken 0 none text.toList ↔ Takes text r i j l := by
  have hall : (i, j, l) ∈ r.allTaken 0 (before? text 0) text.toList ↔
      0 ≤ i ∧ Takes text r i j l :=
    mem_allTaken_slice_iff hr (Nat.zero_le _) (slice_zero_size text)
  rw [show before? text 0 = none from rfl] at hall
  rw [hall]
  exact and_iff_right (Nat.zero_le i)

end

theorem Denotes.occurrences_singleton {p : Pattern} {text : Array Char}
    {r : Regex} {i j : Nat} {l : Marks} (h : p.Denotes r)
    (hclosed : r.closed = true) (hsolid : r.solid = true)
    (hall : r.allTaken 0 none text.toList = [(i, j, l)]) :
    p.Occurrences text [⟨i, j, ((0, i) :: (l ++ [(1, j)])).reverse⟩] := by
  have honly : ∀ i' j' l', Takes text r i' j' l' ↔
      i' = i ∧ j' = j ∧ l' = l := by
    intro i' j' l'
    rw [← mem_allTaken_iff hsolid, hall, List.mem_singleton, Prod.mk.injEq,
      Prod.mk.injEq]
  have htakes := (honly i j l).mpr ⟨rfl, rfl, rfl⟩
  have hocc : p.Occurrences text (p.allMatches text) :=
    (allMatches_iff h.whole).mpr rfl
  generalize p.allMatches text = ms at hocc
  cases hocc with
  | nil hno => exact absurd htakes (h.no_first hno i j l (Nat.zero_le i))
  | @cons m ms hm hms =>
      obtain ⟨l', hl, hmarks⟩ := h.takes_of_first hm
      obtain ⟨rfl, rfl, rfl⟩ := (honly _ _ _).mp hl
      have hm_eq : m = ⟨m.start, m.stop,
          ((0, m.start) :: (l' ++ [(1, m.stop)])).reverse⟩ := by
        rw [← hmarks]
      rw [← hm_eq]
      refine .cons hm (.nil fun m' hm' => ?_)
      have hfirst := (h.follows_iff hclosed).mp hm'
      obtain ⟨l'', hl'', -⟩ := h.takes_of_first hfirst
      have hstart := ((honly _ _ _).mp hl'').1
      have hle := hfirst.le_start
      have hne := hl.spells.closed hclosed none
      have hlen := length_slice hl.le hl.le_size
      have hpos := List.length_pos_iff.mpr hne.1
      omega

end Codemod.Pattern

namespace Codemod.Rule

open Pattern

/-- A rule replaces the one part of a document that its expression takes. -/
theorem apply_once {r : Rule} {x : Regex} {document s : String}
    {i j : Nat} {l : Marks} (hx : r.pattern.Denotes x)
    (hclosed : x.closed = true) (hsolid : x.solid = true)
    (hall : x.allTaken 0 none document.toList = [(i, j, l)]) (hs : r.produce
      (r.hit document ⟨i, j, ((0, i) :: (l ++ [(1, j)])).reverse⟩) = .ok s) :
    r.apply document =
      .ok ⟨String.ofList (slice document.toList.toArray 0 i ++ s.toList ++
      slice document.toList.toArray j document.toList.toArray.size), 1⟩ := by
  have hocc : r.pattern.Occurrences document.toList.toArray _ :=
    hx.occurrences_singleton hclosed hsolid hall
  rw [apply_eq, (allMatches_iff hx.whole).mp hocc, splice_eq_ok (.cons hs .nil)]
  show Except.ok (⟨String.ofList (_ ++ _ ++ List.flatten [_]), 1⟩ : Edit) = _
  rw [List.flatten_singleton]

theorem run_once {r : Rule} {x : Regex} {document s : String}
    {i j : Nat} {l : Marks} (hx : r.pattern.Denotes x)
    (hclosed : x.closed = true) (hsolid : x.solid = true)
    (hall : x.allTaken 0 none document.toList = [(i, j, l)]) (hs : r.produce
      (r.hit document ⟨i, j, ((0, i) :: (l ++ [(1, j)])).reverse⟩) = .ok s) :
    Rules.run [r] document = ([.ruleApplied r.name 1],
      .ok (String.ofList (slice document.toList.toArray 0 i ++ s.toList ++
        slice document.toList.toArray j document.toList.toArray.size))) := by
  rw [Rules.run, apply_once hx hclosed hsolid hall hs]
  rfl

/-- A rule may leave something for itself: replacing the one part that its
expression takes may make another one. -/
theorem apply_exposes {r : Rule} {x : Regex} {document s : String}
    {i j : Nat} {l : Marks} (hx : r.pattern.Denotes x)
    (hclosed : x.closed = true) (hsolid : x.solid = true)
    (hall : x.allTaken 0 none document.toList = [(i, j, l)]) (hs : r.produce
      (r.hit document ⟨i, j, ((0, i) :: (l ++ [(1, j)])).reverse⟩) = .ok s)
    (hnew : x.allTaken 0 none (slice document.toList.toArray 0 i ++ s.toList ++
      slice document.toList.toArray j document.toList.toArray.size) ≠ []) :
    ∃ edit, r.apply document = .ok edit ∧
      ∃ i j, r.pattern.CanMatch edit.text.toList.toArray i j := by
  refine ⟨_, apply_once hx hclosed hsolid hall hs, ?_⟩
  obtain ⟨⟨i', j', l'⟩, hmem⟩ := List.exists_mem_of_ne_nil _ hnew
  refine ⟨i', j', hx.canMatch_iff.mpr ⟨l', (mem_allTaken_iff hsolid).mp ?_⟩⟩
  rw [String.toList_ofList]
  exact hmem

end Codemod.Rule
