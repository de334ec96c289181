import Codemod.Manifest
import Codemod.Rule
import Mathlib.Data.List.Forall2

/-!
# Reading back a written manifest

A list of targets can be written as an array in many layouts. Whatever the
layout, the reader gives back the list that was written, and another entry
behind the array spoils the document, whatever its key.

The reader is a fold of its step, so what it does to a text that is put
together is what it does to the parts, one after the other. There is a lemma
for each part of a written array, which says from which state to which state
the reader is taken by it. Only an empty string takes the reader to a state
that the next character has to settle, since a third quote might follow.
-/

namespace Codemod.Manifest

/-! ## Written manifests -/

/-- A digit of base sixteen, in either case. -/
def IsHex (k : Nat) (d : Char) : Prop :=
  d = k.digitChar ∨ d = k.digitChar.toUpper

/-- A character within a string. A quote and a backslash are escaped, a control
character is given by the four digits of its code point, and every other
character stands for itself. So may a control character beyond ASCII. -/
inductive Spelled (c : Char) : List Char → Prop where
  | escaped (hc : c = '"' ∨ c = '\\') : Spelled c ['\\', c]
  | coded {digits : List Char}
      (hc : c.toNat < 0x20 ∨ (0x7f ≤ c.toNat ∧ c.toNat < 0xa0))
      (hdigits : List.Forall₂ IsHex [0, 0, c.toNat / 16, c.toNat % 16] digits) :
      Spelled c ('\\' :: 'u' :: digits)
  | plain (hc : 0x20 ≤ c.toNat ∧ c.toNat ≠ 0x7f)
      (hquote : c ≠ '"') (hslash : c ≠ '\\') :
      Spelled c [c]

/-- A string in double quotes. -/
def Quoted (s : String) (w : List Char) : Prop :=
  ∃ parts, List.Forall₂ Spelled s.toList parts ∧
    w = '"' :: (parts.flatten ++ ['"'])

/-- White space of an array: blanks and line ends. -/
inductive Gap : List Char → Prop where
  | nil : Gap []
  | blank {c : Char} {w : List Char} (hc : c = ' ' ∨ c = '\t') (h : Gap w) :
      Gap (c :: w)
  | lineEnd (e : LineEnding) {w : List Char} (h : Gap w) :
      Gap (e.text.toList ++ w)

/-- The array behind one of its elements, where these elements follow. -/
inductive Tail : List String → List Char → Prop where
  | close {gap : List Char} (hgap : Gap gap) : Tail [] (gap ++ [']'])
  | comma {gap gap' : List Char} (hgap : Gap gap) (hgap' : Gap gap') :
      Tail [] (gap ++ ',' :: (gap' ++ [']']))
  | element {gap gap' w rest : List Char} {s : String} {files : List String}
      (hgap : Gap gap)
      (hgap' : Gap gap') (hs : Quoted s w) (h : Tail files rest) :
      Tail (s :: files) (gap ++ ',' :: (gap' ++ (w ++ rest)))

/-- The array behind its opening bracket. -/
inductive Elements : List String → List Char → Prop where
  | none {gap : List Char} (hgap : Gap gap) : Elements [] (gap ++ [']'])
  | some {gap w rest : List Char} {s : String} {files : List String}
      (hgap : Gap gap) (hs : Quoted s w) (h : Tail files rest) :
      Elements (s :: files) (gap ++ (w ++ rest))

/-- The document lists the files. -/
def Lists (files : List String) (doc : String) : Prop :=
  ∃ w, Elements files w ∧ doc = "files = [" ++ String.ofList w

/-- A key that needs no quotes. -/
def IsBareKey (key : String) : Prop :=
  key ≠ "" ∧ ∀ c ∈ key.toList, c.isAlphanum = true ∨ c = '_' ∨ c = '-'

/-- What a manifest with these files is answered with. -/
def answer (files : List String) (path : String) : Except Error Manifest :=
  if "" ∈ files then .error (.emptyTarget path) else .ok { files }

/-! ## How a part begins -/

theorem Spelled.exists_cons {c : Char} {w : List Char} (h : Spelled c w) :
    ∃ d ds, w = d :: ds ∧ d ≠ '"' := by
  cases h with
  | escaped => exact ⟨_, _, rfl, by decide⟩
  | coded => exact ⟨_, _, rfl, by decide⟩
  | plain _ hquote => exact ⟨_, _, rfl, hquote⟩

theorem Gap.exists_cons {gap ds : List Char} {d : Char}
    (h : Gap gap) (hd : d ≠ '"') :
    ∃ c cs, gap ++ d :: ds = c :: cs ∧ c ≠ '"' := by
  cases h with
  | nil => exact ⟨d, ds, rfl, hd⟩
  | blank hc => rcases hc with rfl | rfl <;> exact ⟨_, _, rfl, by decide⟩
  | lineEnd e => cases e <;> exact ⟨_, _, rfl, by decide⟩

theorem Tail.exists_cons {files : List String} {w : List Char}
    (h : Tail files w) :
    ∃ c cs, w = c :: cs ∧ c ≠ '"' := by
  cases h with
  | close hgap | comma hgap | element hgap => exact hgap.exists_cons (by decide)

namespace Reader

variable {given : Bool} {files : List (List Char)} {c : Char}
  {w rest rev : List Char} {s : String}

/-! ## What the reader does to each part -/

theorem foldlM_behind {st st' : State}
    (h : w.foldlM step st = some st') (rest : List Char) :
    (w ++ rest).foldlM step st = rest.foldlM step st' := by
  rw [List.foldlM_append, h]
  rfl

/-- White space does not leave the array. -/
theorem foldlM_gap (h : Gap w) {m : Mode}
    (hm : m = .beforeElement ∨ m = .afterElement) :
    w.foldlM step ⟨m, given, files⟩ = some ⟨m, given, files⟩ := by
  induction h with
  | nil => rfl
  | blank hc _ ih =>
      rcases hm with rfl | rfl <;> rcases hc with rfl | rfl <;> exact ih
  | lineEnd e _ ih => rcases hm with rfl | rfl <;> cases e <;> exact ih

theorem hexValue?_of_isHex {k : Nat} (hk : k < 16) (h : IsHex k c) :
    Text.hexValue? c = some k := by
  have hvalues : ∀ k < 16, Text.hexValue? k.digitChar = some k ∧
      Text.hexValue? k.digitChar.toUpper = some k := by decide
  rcases h with rfl | rfl
  · exact (hvalues k hk).1
  · exact (hvalues k hk).2

/-- A spelled character is added to the string. -/
theorem foldlM_spelled (h : Spelled c w) :
    w.foldlM step ⟨.quoted '"' .element rev, given, files⟩ =
      some ⟨.quoted '"' .element (c :: rev), given, files⟩ := by
  cases h with
  | escaped hc => rcases hc with rfl | rfl <;> rfl
  | coded hc hdigits =>
      cases hdigits with | @cons _ d₁ _ _ h₁ hdigits =>
      cases hdigits with | @cons _ d₂ _ _ h₂ hdigits =>
      cases hdigits with | @cons _ d₃ _ _ h₃ hdigits =>
      cases hdigits with | @cons _ d₄ _ _ h₄ hdigits =>
      cases hdigits
      have hvalue : 16 * (c.toNat / 16) + c.toNat % 16 = c.toNat :=
        Nat.div_add_mod _ _
      have hvalid : c.toNat.isValidChar := c.valid
      simp [step, stepEscape, stepQuoted, stepCode,
        escape?, codeWidth?, State.enter, State.resume,
        hexValue?_of_isHex (by omega) h₁, hexValue?_of_isHex (by omega) h₂,
        hexValue?_of_isHex (by omega) h₃, hexValue?_of_isHex (by omega) h₄,
        hvalue, hvalid]
  | plain hc hquote hslash =>
      have hplain : isPlain c = true := by simp [isPlain, hc]
      simp [step, stepQuoted, State.enter, hquote, hslash, hplain]

theorem foldlM_flatten {cs : List Char} {parts : List (List Char)}
    (h : List.Forall₂ Spelled cs parts) :
    parts.flatten.foldlM step ⟨.quoted '"' .element rev, given, files⟩ =
      some ⟨.quoted '"' .element (cs.reverse ++ rev), given, files⟩ := by
  induction h generalizing rev with
  | nil => rfl
  | cons hpart _ ih =>
      rw [List.flatten_cons, foldlM_behind (foldlM_spelled hpart), ih]
      simp

/-- The first character of a string is read as any other one, unless it is a
quote. -/
theorem step_oneQuote (hc : c ≠ '"') : step ⟨.oneQuote '"', given, files⟩ c =
    step ⟨.quoted '"' .element [], given, files⟩ c := by
  simp [step, stepQuoted, hc, State.enter]

theorem step_twoQuotes (hc : c ≠ '"') : step ⟨.twoQuotes '"', given, files⟩ c =
    step ⟨.afterElement, given, [] :: files⟩ c := by
  simp [step, stepAfterElement, stepArrayBlank, hc, State.enter,
    State.endElement]

/-- A string in quotes is added to the files, when no third quote follows. -/
theorem foldlM_quoted (h : Quoted s w)
    (hrest : ∃ d ds, rest = d :: ds ∧ d ≠ '"') :
    (w ++ rest).foldlM step ⟨.beforeElement, given, files⟩ =
      rest.foldlM step ⟨.afterElement, given, s.toList :: files⟩ := by
  obtain ⟨parts, hparts, rfl⟩ := h
  generalize s.toList = cs at hparts
  show ((parts.flatten ++ ['"']) ++ rest).foldlM step
    ⟨.oneQuote '"', given, files⟩ = _
  cases hparts with
  | nil =>
      obtain ⟨d, ds, rfl, hd⟩ := hrest
      show (d :: ds).foldlM step ⟨.twoQuotes '"', given, files⟩ = _
      rw [List.foldlM_cons, List.foldlM_cons, step_twoQuotes hd]
  | @cons c part cs parts hpart hparts =>
      have hopen : ((part :: parts).flatten ++ ['"'] ++ rest).foldlM step
            ⟨.oneQuote '"', given, files⟩ =
          ((part :: parts).flatten ++ ['"'] ++ rest).foldlM step
            ⟨.quoted '"' .element [], given, files⟩ := by
        obtain ⟨d, ds, rfl, hd⟩ := hpart.exists_cons
        simp only [List.flatten_cons, List.cons_append, List.foldlM_cons,
          step_oneQuote hd]
      rw [hopen, List.append_assoc,
        foldlM_behind (foldlM_flatten (.cons hpart hparts))]
      simp [step, stepQuoted, State.endQuoted, State.endElement]

/-- Behind an element the other files are read up to the end of the array. -/
theorem foldlM_tail {l : List String} (h : Tail l w) :
    w.foldlM step ⟨.afterElement, given, files⟩ =
      some ⟨.afterValue, given, (l.map String.toList).reverse ++ files⟩ := by
  induction h generalizing files with
  | close hgap =>
      rw [foldlM_behind (foldlM_gap hgap (.inr rfl))]
      rfl
  | comma hgap hgap' =>
      rw [foldlM_behind (foldlM_gap hgap (.inr rfl))]
      show List.foldlM step ⟨.beforeElement, given, files⟩ _ = _
      rw [foldlM_behind (foldlM_gap hgap' (.inl rfl))]
      rfl
  | element hgap hgap' hs htail ih =>
      rw [foldlM_behind (foldlM_gap hgap (.inr rfl))]
      show List.foldlM step ⟨.beforeElement, given, files⟩ _ = _
      rw [foldlM_behind (foldlM_gap hgap' (.inl rfl)),
        foldlM_quoted hs htail.exists_cons, ih]
      simp

theorem foldlM_elements {l : List String} (h : Elements l w) :
    w.foldlM step ⟨.beforeElement, given, files⟩ =
      some ⟨.afterValue, given, (l.map String.toList).reverse ++ files⟩ := by
  cases h with
  | none hgap =>
      rw [foldlM_behind (foldlM_gap hgap (.inl rfl))]
      rfl
  | some hgap hs htail =>
      rw [foldlM_behind (foldlM_gap hgap (.inl rfl)),
        foldlM_quoted hs htail.exists_cons, foldlM_tail htail]
      simp

/-! ## The whole document -/

variable {l : List String} {doc : String}

theorem read_files (rest : List Char) : read ("files = [".toList ++ rest) =
    (rest.foldlM step ⟨.beforeElement, true, []⟩).bind finish := by
  have hmark :
      (("files = [".toList ++ rest).head? == some byteOrderMark) = false := by
    rw [List.head?_append]
    rfl
  have hstart : "files = [".toList.foldlM step {} =
      some ⟨.beforeElement, true, []⟩ := by rfl
  rw [read, hmark, if_neg Bool.false_ne_true, foldlM_behind hstart]
  rfl

/-- What stands behind the array decides whether the document is a manifest. -/
theorem read_append (h : Lists l doc) (rest : List Char) :
    read (doc.toList ++ rest) = (rest.foldlM step
      ⟨.afterValue, true, (l.map String.toList).reverse⟩).bind finish := by
  obtain ⟨w, hw, rfl⟩ := h
  rw [String.toList_append, @String.toList_ofList w, List.append_assoc,
    read_files, foldlM_behind (foldlM_elements hw), List.append_nil]

theorem foldlM_lineEnd (e : LineEnding) :
    e.text.toList.foldlM step ⟨.afterValue, given, files⟩ =
      some ⟨.line, given, files⟩ := by
  cases e <;> rfl

/-- A second entry is refused as soon as its key has ended. -/
theorem foldlM_bareKey {key : List Char} (hkey : ∀ c ∈ key, isBare c = true)
    (hc : isBare c = false) (rest : List Char) :
    (key ++ c :: rest).foldlM step ⟨.bareKey rev, true, files⟩ = none := by
  induction key generalizing rev with
  | nil => simp [step, hc, State.endKey]
  | cons d key ih =>
      rw [List.forall_mem_cons] at hkey
      have hstep : step ⟨.bareKey rev, true, files⟩ d =
          some ⟨.bareKey (d :: rev), true, files⟩ := by
        simp [step, hkey.1, State.enter]
      rw [List.cons_append, List.foldlM_cons, hstep]
      exact ih hkey.2

theorem foldlM_secondKey {key : List Char}
    (hne : key ≠ []) (hkey : ∀ c ∈ key, isBare c = true)
    (hc : isBare c = false) (rest : List Char) :
    (key ++ c :: rest).foldlM step ⟨.line, true, files⟩ = none := by
  cases key with
  | nil => exact absurd rfl hne
  | cons d key =>
      rw [List.forall_mem_cons] at hkey
      have hstep : step ⟨.line, true, files⟩ d =
          some ⟨.bareKey [d], true, files⟩ := by
        have hother : ∀ x, isBare x = false → d ≠ x := by
          rintro x hx rfl
          cases hkey.1.symm.trans hx
        simp [step, stepLine, isBlank, State.enter, hkey.1, hother ' ' rfl,
          hother '\t' rfl, hother '\n' rfl, hother '\r' rfl, hother '#' rfl,
          hother '"' rfl, hother '\'' rfl]
      rw [List.cons_append, List.foldlM_cons, hstep]
      exact foldlM_bareKey hkey.2 hc rest

end Reader

theorem exists_spelled (c : Char) : ∃ w, Spelled c w := by
  by_cases hescaped : c = '"' ∨ c = '\\'
  · exact ⟨_, .escaped hescaped⟩
  · by_cases hcoded : c.toNat < 0x20 ∨ (0x7f ≤ c.toNat ∧ c.toNat < 0xa0)
    · exact ⟨_, .coded hcoded (.cons (.inl rfl)
          (.cons (.inl rfl) (.cons (.inl rfl) (.cons (.inl rfl) .nil))))⟩
    · rw [not_or] at hescaped
      exact ⟨_, .plain (by omega) hescaped.1 hescaped.2⟩

theorem exists_quoted (s : String) : ∃ w, Quoted s w := by
  have hparts : ∀ cs : List Char, ∃ parts, List.Forall₂ Spelled cs parts := by
    intro cs
    induction cs with
    | nil => exact ⟨[], .nil⟩
    | cons c cs ih =>
        obtain ⟨parts, hparts⟩ := ih
        obtain ⟨part, hpart⟩ := exists_spelled c
        exact ⟨part :: parts, .cons hpart hparts⟩
  obtain ⟨parts, hparts⟩ := hparts s.toList
  exact ⟨_, parts, hparts, rfl⟩

theorem exists_tail (files : List String) : ∃ w, Tail files w := by
  induction files with
  | nil => exact ⟨_, .close .nil⟩
  | cons s files ih =>
      obtain ⟨rest, hrest⟩ := ih
      obtain ⟨w, hw⟩ := exists_quoted s
      exact ⟨_, .element .nil .nil hw hrest⟩

theorem exists_lists (files : List String) : ∃ doc, Lists files doc := by
  cases files with
  | nil => exact ⟨_, _, .none .nil, rfl⟩
  | cons s files =>
      obtain ⟨rest, hrest⟩ := exists_tail files
      obtain ⟨w, hw⟩ := exists_quoted s
      exact ⟨_, _, .some .nil hw hrest, rfl⟩

theorem parse_of_read {content : String} {files : List String} (path : String)
    (h : Reader.read content.toList = some files) :
    parse content path = answer files path := by
  have hany : files.any String.isEmpty = true ↔ "" ∈ files := by
    simp [String.isEmpty_iff]
  simp [parse, h, answer, hany]

/-- A list of targets can be written, and however it is written the manifest
has these targets, with or without a line end behind the array. Another entry
in the next line is refused. -/
theorem parse_lists (files : List String) :
    (∃ doc, Lists files doc) ∧ ∀ doc, Lists files doc → ∀ path,
      parse doc path = answer files path ∧
      ∀ e : LineEnding, parse (doc ++ e.text) path = answer files path ∧
        ∀ key rest, IsBareKey key →
          parse (doc ++ e.text ++ key ++ " = 1" ++ rest) path =
            .error (.manifestMalformed path) := by
  refine ⟨exists_lists files, fun doc hdoc path =>
    ⟨?_, fun e => ⟨?_, fun key rest hkey => ?_⟩⟩⟩
  · have hread := Reader.read_append hdoc []
    rw [List.append_nil] at hread
    exact parse_of_read path (hread.trans (by simp [Reader.finish]))
  · refine parse_of_read path ?_
    rw [String.toList_append, Reader.read_append hdoc, Reader.foldlM_lineEnd]
    simp [Reader.finish]
  · have hbare : ∀ c ∈ key.toList, Reader.isBare c = true := fun c hc => by
      simpa [Reader.isBare, or_assoc] using hkey.2 c hc
    have hread :
        Reader.read (doc ++ e.text ++ key ++ " = 1" ++ rest).toList = none := by
      have hvalue : " = 1".toList = ' ' :: ['=', ' ', '1'] := by rfl
      simp only [String.toList_append, List.append_assoc]
      rw [Reader.read_append hdoc,
        Reader.foldlM_behind (Reader.foldlM_lineEnd e), hvalue,
        List.cons_append, Reader.foldlM_secondKey
          (mt String.toList_eq_nil_iff.mp hkey.1) hbare (by decide)]
      rfl
    rw [parse, hread]

/-- An array over two lines, with a tab that is spelled out and a comma at the
end. -/
theorem parse_lists_two :
    parse "files = [ \"a\\u0009\",\n\"b\",]" "targets.toml" =
      .ok ⟨["a\t", "b"]⟩ ∧
    parse "files = [ \"a\\u0009\",\n\"b\",]\nfiles = 1" "targets.toml" =
      .error (.manifestMalformed "targets.toml") := by
  have ha : Quoted "a\t" ['"', 'a', '\\', 'u', '0', '0', '0', '9', '"'] := by
    refine ⟨[['a'], ['\\', 'u', '0', '0', '0', '9']],
      .cons ?_ (.cons ?_ .nil), by rfl⟩
    · exact .plain (by decide) (by decide) (by decide)
    · exact .coded (by decide) (.cons (.inl rfl)
        (.cons (.inl rfl) (.cons (.inl rfl) (.cons (.inl rfl) .nil))))
  have hb : Quoted "b" ['"', 'b', '"'] :=
    ⟨[['b']], .cons (.plain (by decide) (by decide) (by decide)) .nil, by rfl⟩
  have hdoc : Lists ["a\t", "b"] "files = [ \"a\\u0009\",\n\"b\",]" :=
    ⟨_, .some (.blank (.inl rfl) .nil) ha
      (.element .nil (.lineEnd .lf .nil) hb (.comma .nil .nil)), by rfl⟩
  obtain ⟨hparse, hmore⟩ := (parse_lists ["a\t", "b"]).2 _ hdoc "targets.toml"
  have hletters : "files".toList.all Char.isAlphanum = true := by rfl
  exact ⟨hparse, (hmore .lf).2 "files" "" ⟨by decide, fun c hc =>
    .inl (List.all_eq_true.mp hletters c hc)⟩⟩

end Codemod.Manifest
