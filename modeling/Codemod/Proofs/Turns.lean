import Codemod.Proofs.Sharp
import Codemod.Proofs.Templates

/-!
# Rewriting from left to right

What a rule makes of a text can be told by going over the text once. Where the
pattern takes nothing the character is kept, and where it takes a part, this
part gives way to its replacement. `Turns` is that story for a pattern that is
read in one way only, looks around for nothing but the ends of words and not
behind its own end, and for a rule that makes its replacements from what was
captured. It knows no places, so it can be told of two texts one after the
other: they are rewritten one by one, if no match goes across the seam.
-/

namespace Codemod

open Pattern

namespace Pattern

variable {x : Regex} {i : Nat} {b a : Option Char} {w : List Char} {ms : Marks}

/-- The marks stand where the word stands. -/
theorem Spells.marks_le (h : Spells x i b w a ms) :
    ∀ y ∈ ms, y.2 ≤ i + w.length := by
  induction h with
  | empty | one | look | stop => exact fun y hy => absurd hy List.not_mem_nil
  | group g _ ih =>
      intro y hy
      rcases List.mem_cons.mp hy with rfl | hy
      · exact Nat.le_add_right _ _
      · rcases List.mem_append.mp hy with hy | hy
        · exact ih y hy
        · cases List.mem_singleton.mp hy
          exact Nat.le_refl _
  | seq _ _ ih ih' | round _ _ ih ih' | plus _ _ ih ih' =>
      intro y hy
      rw [List.length_append]
      rcases List.mem_append.mp hy with hy | hy
      · have hle := ih y hy
        omega
      · have hle := ih' y hy
        omega
  | altLeft _ ih | altRight _ ih => exact ih

/-- The match that takes all of a text, with these marks of its parts. -/
def Match.whole (w : List Char) (l : Marks) : Match :=
  ⟨0, w.length, ((0, 0) :: (l ++ [(1, w.length)])).reverse⟩

theorem Match.has_whole (w : List Char) (l : Marks) :
    (Match.whole w l).Has l := rfl

/-- The marks of a match are those of its text alone, further on. -/
theorem Match.Has.marks_eq {m : Match} {l : Marks} {w : List Char}
    (h : m.Has (l.shift m.start)) (hlen : m.stop = m.start + w.length) :
    m.marks = (Match.whole w l).marks.shift m.start := by
  rw [h, hlen]
  simp [Match.whole, Marks.shift, Nat.add_comm]

/-- The marks of a text alone stand in it. -/
theorem Match.whole_le {w : List Char} {l : Marks}
    (hl : ∀ y ∈ l, y.2 ≤ w.length) {key k : Nat}
    (h : (Match.whole w l).marks.lookup key = some k) : k ≤ w.length := by
  obtain ⟨front, back, heq, -⟩ := List.lookup_eq_some_iff.mp h
  have hmem : (key, k) ∈ (0, 0) :: (l ++ [(1, w.length)]) := by
    rw [← List.mem_reverse]
    show (key, k) ∈ (Match.whole w l).marks
    rw [heq]
    exact List.mem_append_right _ List.mem_cons_self
  rcases List.mem_cons.mp hmem with heq | hmem
  · cases heq
    exact Nat.zero_le _
  · rcases List.mem_append.mp hmem with hmem | hmem
    · exact hl _ hmem
    · cases List.mem_singleton.mp hmem
      exact Nat.le_refl _

end Pattern

/-- A part of a part. -/
theorem slice_slice {text : Array Char} {i j p k : Nat} (hk : i + k ≤ j) :
    slice (slice text i j).toArray p k = slice text (i + p) (i + k) := by
  rw [slice, slice, Array.toArray_toList, Array.extract_extract,
    Nat.min_eq_left hk]
  rfl

/-- What can be spelled from a place on can be taken there. -/
theorem Pattern.takes_of_spells {x : Regex}
    (hx : x.worded = true) {text : Array Char} {i : Nat}
    (hi : i ≤ text.size) {u v : List Char}
    (heq : slice text i text.size = u ++ v) {l : Marks}
    (hu : Spells x 0 (before? text i) u v.head? l) :
    ∃ l', Takes text x i (i + u.length) l' := by
  obtain ⟨hle, hslice, hback, -, -⟩ := slice_cut hi (Nat.le_refl _) heq
  obtain ⟨l₀, -, hplaced⟩ := hu.placed hx
  refine ⟨l₀.shift i, by omega, hle, ?_⟩
  rw [hslice, ← head?_slice_size hle, hback]
  exact hplaced i _ rfl

namespace Rule

variable {r : Rule} {x : Regex}

/-- What was captured is told by the text of the match alone. -/
theorem group?_whole {document : String} {m : Match} {l : Marks} {w : List Char}
    (hw : slice document.toList.toArray m.start m.stop = w)
    (hlen : m.stop = m.start + w.length) (hm : m.Has (l.shift m.start))
    (hl : ∀ y ∈ l, y.2 ≤ w.length) (name : String) :
    (r.hit document m).group? name =
      (r.hit (String.ofList w) (.whole w l)).group? name := by
  have hspan : ∀ {g p k : Nat}, (Match.whole w l).span? g = some (p, k) →
      k ≤ w.length := by
    intro g p k h
    obtain ⟨p', -, h⟩ := Option.bind_eq_some_iff.mp h
    obtain ⟨k', hk, h⟩ := Option.bind_eq_some_iff.mp h
    cases h
    exact Match.whole_le hl hk
  have hshift : ∀ g, m.span? g = ((Match.whole w l).span? g).map fun x =>
        (m.start + x.1, m.start + x.2) := by
    intro g
    simp only [Match.span?, hm.marks_eq hlen, Marks.lookup_shift]
    cases (Match.whole w l).marks.lookup (2 * g) with
    | none => rfl
    | some p =>
        cases (Match.whole w l).marks.lookup (2 * g + 1) with
        | none => rfl
        | some k => simp [Nat.add_comm]
  rw [Hit.group?, Hit.group?]
  show (r.pattern.groupIndex? name).bind _ = (r.pattern.groupIndex? name).bind _
  cases r.pattern.groupIndex? name with
  | none => rfl
  | some g =>
      show (m.span? g).bind _ = ((Match.whole w l).span? g).bind _
      rw [hshift]
      cases hg : (Match.whole w l).span? g with
      | none => rfl
      | some x =>
          have hk := hspan hg
          have hback : slice (String.ofList w).toList.toArray x.1 x.2 =
              slice document.toList.toArray (m.start + x.1)
              (m.start + x.2) := by
            rw [String.toList_ofList, ← hw, slice_slice (by omega)]
          exact congrArg (fun cs => some (String.ofList cs)) hback.symm

end Rule

/-- A part that does not look for the line ending depends on nothing but what
was captured. -/
theorem Part.produce_congr {h h' : Hit} (hrule : h.rule = h'.rule)
    (hgroup : ∀ name, h.group? name = h'.group? name) {p : Part}
    (hp : p ≠ .lineEnding) :
    p.produce h = p.produce h' := by
  have hsame : ∀ name, h.group name = h'.group name := by
    intro name
    rw [Hit.group, Hit.group, hgroup, hrule]
  cases p with
  | text s => rfl
  | group name => exact hsame name
  | «optional» name fallback => rw [Part.produce, Part.produce, hgroup]
  | role name => rw [Part.produce, Part.produce, hsame]
  | lineEnding => exact absurd rfl hp

theorem Template.produce_congr {h h' : Hit} (hrule : h.rule = h'.rule)
    (hgroup : ∀ name, h.group? name = h'.group? name) {t : Template}
    (ht : .lineEnding ∉ t) :
    t.produce h = t.produce h' := by
  induction t with
  | nil => rfl
  | cons p ps ih =>
      rw [List.mem_cons, not_or] at ht
      rw [produce, produce,
        Part.produce_congr hrule hgroup (Ne.symm ht.1), ih ht.2]

namespace Rule

/-- What is needed to tell what a rule does from left to right: its pattern is
read in one way only and looks around for nothing but the ends of words, and
its template can be filled from what was captured. -/
structure Local (r : Rule) (x : Regex) : Prop where
  denotes : r.pattern.Denotes x
  sharp : x.sharp anything = true
  worded : x.worded = true
  closed : x.closed = true
  fills : ∃ (t : Template) (names : List String), r.produce = t.produce ∧
    .lineEnding ∉ t ∧ r.pattern.Names names ∧ (t.outline? x names).isSome = true

/-- The rule looks for `x` from left to right in a text behind the character
`b`, and makes another text of it with so many replacements. -/
inductive Turns (r : Rule) (x : Regex) :
    Option Char → List Char → List Char → Nat → Prop where
  | done {b : Option Char} : Turns r x b [] [] 0
  | keep {b : Option Char} {c : Char} {w w' : List Char} {n : Nat}
      (hno : ∀ u v l, c :: w = u ++ v → ¬ Spells x 0 b u v.head? l)
        (h : Turns r x (some c) w w' n) :
      Turns r x b (c :: w) (c :: w') n
  | swap {b : Option Char} {u v v' : List Char} {l : Marks}
      {s : String} {n : Nat} (hu : Spells x 0 b u v.head? l)
      (hs : r.produce (r.hit (String.ofList u) (.whole u l)) = .ok s)
      (h : Turns r x (u.getLast?.or b) v v' n) :
      Turns r x b (u ++ v) (s.toList ++ v') (n + 1)

namespace Local

variable {r : Rule} {x : Regex} {document : String} {m : Match} {l : Marks}

theorem makes (h : r.Local x)
    (ht : Takes document.toList.toArray x m.start m.stop l)
    (hm : m.Has l) : ∃ s, r.produce (r.hit document m) = .ok s := by
  obtain ⟨t, names, hproduce, -, hnames, houtline⟩ := h.fills
  obtain ⟨o, ho⟩ := Option.isSome_iff_exists.mp houtline
  obtain ⟨s, hs, -⟩ := Template.produce_outline hnames ho ht hm
  exact ⟨s, by rw [hproduce]; exact hs⟩

theorem exists_edit (h : r.Local x) (document : String) :
    ∃ edit, r.apply document = .ok edit := by
  have hmade : ∀ m l, Takes document.toList.toArray x m.start m.stop l →
      m.Has l → ∃ s, r.produce (r.hit document m) = .ok s :=
    fun m l ht hm => h.makes ht hm
  obtain ⟨_, _, _, _, happly⟩ := apply_replaces h.denotes hmade
  exact ⟨_, happly⟩

/-- The replacement of a match is that of its text alone. -/
theorem produce_whole (h : r.Local x) {w : List Char}
    (hw : slice document.toList.toArray m.start m.stop = w)
    (hlen : m.stop = m.start + w.length) (hm : m.Has (l.shift m.start))
    (hl : ∀ y ∈ l, y.2 ≤ w.length) :
    r.produce (r.hit document m) =
      r.produce (r.hit (String.ofList w) (.whole w l)) := by
  obtain ⟨t, -, hproduce, hplain, -⟩ := h.fills
  have hgroup := group?_whole (r := r) hw hlen hm hl
  have hrule : (r.hit document m).rule =
      (r.hit (String.ofList w) (.whole w l)).rule := rfl
  rw [hproduce]
  exact Template.produce_congr hrule hgroup hplain

/-- A text that the pattern takes, moved to the front of everything. -/
theorem spells_alone (h : r.Local x) {text : Array Char} {i j : Nat}
    (ht : Takes text x i j l) :
    ∃ l₀ : Marks, l = l₀.shift i ∧ (∀ y ∈ l₀, y.2 ≤ (slice text i j).length) ∧
      Spells x 0 (before? text i) (slice text i j) text[j]? l₀ := by
  obtain ⟨l₀, rfl, hplaced⟩ := ht.spells.placed h.worded
  have hzero := hplaced 0 _ rfl
  rw [show l₀.shift 0 = l₀ by simp [Marks.shift]] at hzero
  refine ⟨l₀, rfl, fun y hy => ?_, hzero⟩
  have hle := hzero.marks_le y hy
  omega

/-- Where nothing is taken, the characters are kept. -/
theorem turns_skip (h : r.Local x) {text : Array Char} {i j : Nat} (hij : i ≤ j)
    (hj : j ≤ text.size) (hno : ∀ k q l, i ≤ k → k < j → ¬ Takes text x k q l)
    {w : List Char} {n : Nat}
    (hrest : Turns r x (before? text j) (slice text j text.size) w n) :
    Turns r x (before? text i) (slice text i text.size)
      (slice text i j ++ w) n := by
  induction hn : j - i generalizing i with
  | zero =>
      obtain rfl : i = j := by omega
      rw [slice_self]
      exact hrest
  | succ d ih =>
      obtain ⟨c, hc, heq⟩ :=
        slice_eq_cons (show i < text.size by omega) (Nat.le_refl _)
      have hnext := ih (show i + 1 ≤ j by omega)
        (fun k q l hk => hno k q l (by omega)) (by omega)
      rw [← slice_append (Nat.le_succ i) (show i + 1 ≤ j by omega),
        slice_succ hc, heq]
      refine .keep (fun u v l huv hu => ?_) ?_
      · rw [← heq] at huv
        obtain ⟨l', htakes⟩ := takes_of_spells h.worded (by omega) huv hu
        exact hno i (i + u.length) l' (Nat.le_refl i) (by omega) htakes
      · have hbefore : before? text (i + 1) = some c := hc
        rw [hbefore] at hnext
        exact hnext

/-- The matches from a place on, told from left to right. -/
theorem turns_of_sequel (h : r.Local x) {last : Nat} {ms : List Match}
    {rs : List String} (hms : r.pattern.Sequel document.toList.toArray last ms)
    (hrs : List.Forall₂ (r.Replaces x document) ms rs)
    (hlast : last ≤ document.toList.toArray.size) :
    Turns r x (before? document.toList.toArray last)
      (slice document.toList.toArray last document.toList.toArray.size)
      (weave (gaps document.toList.toArray last ms)
        (rs.map String.toList)) ms.length := by
  induction hms generalizing rs with
  | @nil last hno =>
      cases hrs
      have hnone : ∀ k q l, last ≤ k →
          ¬ Takes document.toList.toArray x k q l :=
        h.denotes.no_first fun m hm =>
          hno m ((h.denotes.follows_iff h.closed).mpr hm)
      have hdone : Turns r x
          (before? document.toList.toArray document.toList.toArray.size)
          (slice document.toList.toArray document.toList.toArray.size
            document.toList.toArray.size) [] 0 := by
        rw [slice_self]
        exact .done
      have hskip :=
        h.turns_skip (j := document.toList.toArray.size) hlast (Nat.le_refl _)
        (fun k q l hk _ => hnone k q l hk) hdone
      rw [List.append_nil] at hskip
      rw [List.map_nil, gaps, weave, List.flatten_singleton]
      exact hskip
  | @cons last m ms hm _ ih =>
      cases hrs with
      | @cons _ s _ rs hs hrs =>
          obtain ⟨l, hl, hmarks, hproduce⟩ := hs
          have hfirst := (h.denotes.follows_iff h.closed).mp hm
          have hsize := hl.le_size
          rw [List.map_cons, gaps, weave, List.length_cons, List.append_assoc]
          refine h.turns_skip hfirst.le_start (Nat.le_trans hl.le hsize)
            (fun k q l hk hlt ht => ?_) ?_
          · exact hfirst.least k q hk hlt (h.denotes.canMatch_iff.mpr ⟨l, ht⟩)
          · obtain ⟨l₀, rfl, hle, hspells⟩ := h.spells_alone hl
            have hrest := ih hrs hsize
            rw [← getLast?_slice_or hl.le hsize] at hrest
            rw [← slice_append hl.le hsize]
            refine .swap (l := l₀) ?_ ?_ hrest
            · rw [head?_slice_size hsize]
              exact hspells
            · have hlen : m.stop = m.start +
                  (slice document.toList.toArray m.start m.stop).length := by
                rw [length_slice hl.le hsize, Nat.add_sub_cancel' hl.le]
              rw [← h.produce_whole rfl hlen hmarks hle, hproduce]

/-- Applying a rule goes over the document from left to right. -/
theorem turns_of_apply (h : r.Local x) {edit : Edit}
    (happly : r.apply document = .ok edit) :
    Turns r x none document.toList edit.text.toList edit.replacements := by
  obtain ⟨ms, rs, hocc, hrs, heq⟩ :=
    apply_replaces h.denotes fun m l ht hm => h.makes ht hm
  rw [happly] at heq
  cases heq
  have hsequel : r.pattern.Sequel document.toList.toArray 0 ms := by
    cases hocc with
    | nil hno =>
        exact .nil fun m hm => hno m ((h.denotes.follows_iff h.closed).mp hm)
    | cons hm hms => exact .cons ((h.denotes.follows_iff h.closed).mpr hm) hms
  have hturns := h.turns_of_sequel hsequel hrs (Nat.zero_le _)
  rw [slice_zero_size] at hturns
  rw [String.toList_ofList]
  exact hturns

variable {b b' : Option Char} {u v w w' t t' : List Char} {n k : Nat}

theorem turns_unique (h : r.Local x)
    (hw : Turns r x b w v n) (hw' : Turns r x b w v' k) :
    v = v' ∧ n = k := by
  induction hw generalizing v' k with
  | done =>
      generalize hnil : ([] : List Char) = w at hw'
      cases hw' with
      | done => exact ⟨rfl, rfl⟩
      | keep => cases hnil
      | swap hu =>
          exact absurd (List.append_eq_nil_iff.mp hnil.symm).1
            (hu.closed h.closed none).1
  | @keep b c w _ _ hno _ ih =>
      generalize hcons : c :: w = u at hw'
      cases hw' with
      | done => cases hcons
      | keep _ hrest =>
          cases hcons
          obtain ⟨rfl, rfl⟩ := ih hrest
          exact ⟨rfl, rfl⟩
      | swap hu => exact absurd hu (hno _ _ _ hcons)
  | @swap b u v _ _ _ _ hu hs _ ih =>
      generalize happend : u ++ v = w at hw'
      cases hw' with
      | done =>
          exact absurd (List.append_eq_nil_iff.mp happend).1
            (hu.closed h.closed none).1
      | keep hno => exact absurd hu (hno _ _ _ happend.symm)
      | swap hu' hs' hrest =>
          obtain ⟨rfl, rfl⟩ :=
            hu.sharp h.sharp hu' (heads_anything _) (heads_anything _) happend
          obtain rfl := List.append_cancel_left happend
          rw [hs] at hs'
          cases hs'
          obtain ⟨rfl, rfl⟩ := ih hrest
          exact ⟨rfl, rfl⟩

/-- What a rule makes of a document is what it makes of it from left to
right. -/
theorem apply_iff (h : r.Local x) {edit : Edit} : r.apply document = .ok edit ↔
    Turns r x none document.toList edit.text.toList edit.replacements := by
  refine ⟨h.turns_of_apply, fun hturns => ?_⟩
  obtain ⟨edit', happly⟩ := h.exists_edit document
  obtain ⟨htext, hcount⟩ := h.turns_unique (h.turns_of_apply happly) hturns
  have hedit : ∀ {e e' : Edit}, e.text = e'.text →
      e.replacements = e'.replacements → e = e' := by
    rintro ⟨_, _⟩ ⟨_, _⟩ rfl rfl
    rfl
  rw [happly, hedit (String.toList_injective htext) hcount]

/-- Of the character before the text only matters whether it is a word
character. -/
theorem turns_behind (h : r.Local x) (hw : Turns r x b w v n)
    (hb : Anchor.isWord? b = Anchor.isWord? b') : Turns r x b' w v n := by
  have hmove : ∀ {b b' : Option Char} {u a l},
      Anchor.isWord? b = Anchor.isWord? b' →
      Spells x 0 b u a l → Spells x 0 b' u a l := by
    intro b b' u a l hb hu
    obtain ⟨l₀, rfl, hplaced⟩ := hu.placed h.worded
    exact hplaced 0 b' hb
  cases hw with
  | done => exact .done
  | keep hno hrest =>
      exact .keep (fun u v l heq hu => hno u v l heq (hmove hb.symm hu)) hrest
  | @swap _ u v _ l s _ hu hs hrest =>
      have hlast : u.getLast?.or b = u.getLast?.or b' := by
        obtain ⟨c, hc⟩ := Option.isSome_iff_exists.mp
          (List.getLast?_isSome.mpr (hu.closed h.closed none).1)
        rw [hc]
        rfl
      rw [hlast] at hrest
      exact .swap (hmove hb hu) hs hrest

/-- No match goes from one text into the next, if none that begins before the
second text goes into it. -/
theorem turns_append (h : r.Local x)
    (ht : Turns r x b t u n) (hw : Turns r x b' w v k)
    (hb : Anchor.isWord? (t.getLast?.or b) = Anchor.isWord? b')
    (hinto : ∀ u v s i b a l, u ≠ [] → v ≠ [] →
      v ++ s = w → ¬ Spells x i b (u ++ v) a l) :
    Turns r x b (t ++ w) (u ++ v) (n + k) := by
  induction ht with
  | done =>
      rw [Nat.zero_add]
      exact h.turns_behind hw hb.symm
  | @keep b c t _ _ hno _ ih =>
      have hrest :=
        ih (by rw [← hb, List.getLast?_cons]; cases t.getLast? <;> rfl)
      refine .keep (fun p s l heq hp => ?_) hrest
      rcases List.append_eq_append_iff.mp
        (show c :: t ++ w = p ++ s from heq) with
        ⟨p', rfl, hsplit⟩ | ⟨t', hfront, rfl⟩
      · by_cases hp' : p' = []
        · subst hp'
          exact hno (c :: t) [] l (List.append_nil _).symm (by
            rw [List.append_nil] at hp
            exact (hp.closed h.closed _).2)
        · exact hinto (c :: t) p' s 0 b _ l
            (List.cons_ne_nil c t) hp' hsplit.symm hp
      · exact hno p t' l hfront (hp.closed h.closed _).2
  | @swap b p t _ _ _ m hp hs _ ih =>
      have hlast : Anchor.isWord? (t.getLast?.or (p.getLast?.or b)) =
          Anchor.isWord? b' := by
        rw [← hb, List.getLast?_append, Option.or_assoc]
      rw [List.append_assoc, List.append_assoc, Nat.add_right_comm]
      exact .swap (hp.closed h.closed _).2 hs (ih hlast)

/-- A text that the pattern takes as a whole, with other texts around it: these
are rewritten on their own, if no match goes from the front into the text. -/
theorem apply_between (h : r.Local x) {pre w post s : String}
    (hw : Spells x 0 none w.toList none l)
    (hs : r.produce (r.hit w (.whole w.toList l)) = .ok s)
    (hpre : Anchor.isWord? pre.toList.getLast? = false)
    (hend : Anchor.isWord? w.toList.getLast? = false)
    (hinto : ∀ u v s i b a l, u ≠ [] → v ≠ [] →
      v ++ s = w.toList ++ post.toList → ¬ Spells x i b (u ++ v) a l) :
    ∃ e e', r.apply pre = .ok e ∧
    r.apply post = .ok e' ∧ r.apply (pre ++ w ++ post) =
      .ok ⟨e.text ++ s ++ e'.text, e.replacements + 1 + e'.replacements⟩ := by
  obtain ⟨e, he⟩ := h.exists_edit pre
  obtain ⟨e', he'⟩ := h.exists_edit post
  refine ⟨e, e', he, he', h.apply_iff.mpr ?_⟩
  have hback : Turns r x none (w.toList ++ post.toList)
      (s.toList ++ e'.text.toList) (e'.replacements + 1) := by
    refine .swap (hw.closed h.closed _).2 ?_
      (h.turns_behind (h.apply_iff.mp he') ?_)
    · rw [String.ofList_toList]
      exact hs
    · rw [Option.or_none, hend]
      rfl
  have hall := h.turns_append (h.apply_iff.mp he) hback
    (by rw [Option.or_none, hpre]; rfl) hinto
  simp only [String.toList_append, List.append_assoc]
  rw [Nat.add_right_comm, Nat.add_assoc]
  exact hall

/-- What is taken from a text is a match in some document, with the replacement
of the text alone. The document is the text with the character before it. -/
theorem exists_hit (h : r.Local x) {a : Option Char} (hu : Spells x 0 b u a l) :
    ∃ (document : String) (m : Match) (l' : Marks),
      Takes document.toList.toArray x m.start m.stop l' ∧ m.Has l' ∧
      r.produce (r.hit document m) =
        r.produce (r.hit (String.ofList u) (.whole u l)) := by
  have htext : slice (b.toList ++ u).toArray 0 (b.toList ++ u).toArray.size =
      b.toList ++ u :=
    slice_zero_size _
  obtain ⟨hle, -, hslice, hbefore, -⟩ :=
    slice_cut (Nat.zero_le _) (Nat.le_refl _) htext
  have hb : before? (b.toList ++ u).toArray (0 + b.toList.length) = b := by
    rw [hbefore]
    cases b <;> rfl
  have hstop : (b.toList ++ u).toArray.size = 0 + b.toList.length +
      u.length := by simp
  obtain ⟨l₀, hl₀, hplaced⟩ := hu.placed h.worded
  obtain rfl : l = l₀ := hl₀.trans (by simp [Marks.shift])
  rw [hstop] at hslice hle
  generalize 0 + b.toList.length = k at *
  refine ⟨String.ofList (b.toList ++ u),
    ⟨k, k + u.length, ((0, k) :: (l.shift k ++ [(1, k + u.length)])).reverse⟩,
    l.shift k, ?_, rfl, ?_⟩
  · rw [String.toList_ofList]
    refine ⟨hle, Nat.le_of_eq hstop.symm, ?_⟩
    rw [hb]
    show Spells x k b (slice _ k (k + u.length)) _ _
    rw [hslice]
    exact ((hplaced k b rfl).closed h.closed _).2
  · refine h.produce_whole ?_ rfl rfl fun y hy => ?_
    · rw [String.toList_ofList]
      exact hslice
    · have hmarks := hu.marks_le y hy
      omega

end Local

/-! ## What one rule leaves to another -/

/-- Whatever the rule takes gets a replacement, and all replacements have the
outline. -/
def Makes (r : Rule) (x : Regex) (o : Outline) : Prop :=
  ∀ {b a : Option Char} {u : List Char} {l : Marks}, Spells x 0 b u a l →
    ∃ s, r.produce (r.hit (String.ofList u) (.whole u l)) = .ok s ∧
    Fits o s.toList

section

variable {r : Rule} {x q : Regex} {o : Outline} {b b' a : Option Char}
  {u v w w' p : List Char} {n i k : Nat} {l : Marks}

theorem Local.makes_outline (h : r.Local x) {t : Template} {names : List String}
    (hproduce : r.produce = t.produce) (hnames : r.pattern.Names names)
    (ho : t.outline? x names = some o) : r.Makes x o := by
  intro b a u l hu
  obtain ⟨document, m, l', ht, hm, hsame⟩ := h.exists_hit hu
  obtain ⟨s, hs, hfits⟩ := Template.produce_outline hnames ho ht hm
  exact ⟨s, by rw [← hsame, hproduce, hs], hfits⟩

/-- What begins in a kept text and is spelled behind the rule was spelled there
before. -/
theorem spells_of_turned (hr : r.Makes x o)
    (hinto : tailsApart n o q.outline = true) (h : Turns r x b w w' k)
    (hp : p ≠ []) (heq : p ++ w' = u ++ v) (hu : Spells q i b' u a l) :
    ∃ v', p ++ w = u ++ v' := by
  induction h generalizing p with
  | done => exact ⟨v, heq⟩
  | @keep b c w w' k _ _ ih =>
      obtain ⟨v', hv'⟩ := ih (p := p ++ [c]) (by simp) (by simpa using heq)
      exact ⟨v', by simpa using hv'⟩
  | @swap b x' v₁ v₁' _ s _ hx' hs _ _ =>
      obtain ⟨s', hs', hfits⟩ := hr hx'
      obtain rfl := Except.ok.inj (hs'.symm.trans hs)
      rcases List.append_eq_append_iff.mp heq with ⟨z, rfl, hz⟩ | ⟨z, rfl, -⟩
      · by_cases hne : z = []
        · subst hne
          exact ⟨x' ++ v₁, by rw [List.append_nil]⟩
        · exact absurd hu (not_spells_into hinto hfits hp hne hz.symm)
      · exact ⟨z ++ (x' ++ v₁), by rw [List.append_assoc]⟩

/-- A text in which nothing begins that the rule looks for is kept. -/
theorem turns_keeps (hno : ∀ p c z y s b l, u = p ++ c :: z →
      c :: z ++ w = y ++ s → ¬ Spells x 0 b y s.head? l)
    (h : Turns r x (u.getLast?.or b) w w' n) :
    Turns r x b (u ++ w) (u ++ w') n := by
  induction u generalizing b with
  | nil => exact h
  | cons c u ih =>
      refine .keep (fun y s l heq => hno [] c u y s b l rfl heq)
        (ih (fun p d z y s b l hu heq => ?_) ?_)
      · exact hno (c :: p) d z y s b l (by rw [hu]; rfl) heq
      · rw [List.getLast?_cons] at h
        cases hlast : u.getLast? with
        | none =>
            rw [hlast] at h
            exact h
        | some d =>
            rw [hlast] at h
            exact h

/-- So is a text of an outline that stays apart from what the rule looks for,
if it does not end with a word character. -/
theorem Local.turns_over (hx : r.Local x)
    (hwithin : endsApart k [] x.outline o = true) (hends : o.endsPlain = true)
    (hu : Fits o u) (hb : Anchor.isWord? b' = false)
    (h : Turns r x b' w w' n) : Turns r x b (u ++ w) (u ++ w') n := by
  refine turns_keeps (fun p c z y s b l heq hrest hy => ?_) ?_
  · rw [heq] at hu
    exact ends_apart hwithin (List.cons_ne_nil c z) hu .nil hy.fits hrest
  · exact hx.turns_behind h (hb.trans (hu.lastPlain hends b).symm)

end

end Rule

end Codemod
