import Codemod.Pattern.Reader

/-!
# The grammar of patterns

What the text of a pattern stands for, said without the reader. The short forms
are relations between a text and what it writes: escapes, classes, counts, the
switches in the head of a group. `Parts` puts them together: a text falls into
branches, and each branch into members, from left to right. Two things are
handed on from member to member: the switches in force and the names of the
groups so far. A change of switches holds up to the end of the group it stands
in, across branches too, and a group has the number of the names before it.

What a member does not tell by itself is told by what stands before it. A
repetition needs something to repeat, and a question mark right behind a
repetition makes it lazy; `Ending` is what is known of the text so far.
-/

namespace Codemod.Pattern

/-- The text can name a group. -/
def Reader.isName : List Char → Bool
  | [] => false
  | c :: cs => isNameChar c true && cs.all (isNameChar · false)

namespace Grammar

open Reader (Escaped Atom FlagItem escape? isName isClassOperator changeFlags
  flagItem? maxCount)

/-! ## Numbers and escapes -/

/-- The number that digits write. -/
def number? (base : Nat) (digit? : Char → Option Nat) (ds : List Char) :
    Option Nat :=
  ds.foldlM (fun n c => (digit? c).map (base * n + ·)) 0

/-- The letters that begin a code point, and the digits that each asks for. -/
def hexWidth? (c : Char) : Option Nat :=
  match c with
  | 'x' => some 2
  | 'u' => some 4
  | 'U' => some 8
  | _ => none

/-- What the text behind a backslash stands for. -/
inductive Escape : List Char → Escaped → Prop where
  | sign {c : Char} {e : Escaped} (h : escape? c = some e) : Escape [c] e
  | fixed {c : Char} {ds : List Char} {n : Nat}
      (hlen : hexWidth? c = some ds.length)
      (hn : number? 16 Text.hexValue? ds = some n) (hvalid : n.isValidChar) :
      Escape (c :: ds) (.char (.ofNat n))
  | braced {c : Char} {ds : List Char} {n : Nat}
      (hc : (hexWidth? c).isSome = true) (hne : ds ≠ [])
      (hn : number? 16 Text.hexValue? ds = some n) (hvalid : n.isValidChar) :
      Escape (c :: '\x7b' :: (ds ++ ['\x7d'])) (.char (.ofNat n))

/-! ## Classes -/

/-- What an atom of a class covers. -/
def atomItem : Atom → ClassItem
  | .char c => .range c c
  | .entry i => i

/-- An atom of a class: a character, or an escape that is no anchor. -/
inductive ClassAtom : List Char → Atom → Prop where
  | plain {c : Char} (hc : c ∉ [']', '[', '\\']) : ClassAtom [c] (.char c)
  | char {ds : List Char} {c : Char} (h : Escape ds (.char c)) :
      ClassAtom ('\\' :: ds) (.char c)
  | property {ds : List Char} {p : Property} {holds : Bool}
      (h : Escape ds (.property p holds)) :
      ClassAtom ('\\' :: ds) (.entry (.property p holds))

/-- The character at the end of a range; an opening bracket may stand there. -/
inductive RangeEnd : List Char → Char → Prop where
  | plain {c : Char} (hc : c ∉ [']', '-', '\\']) : RangeEnd [c] c
  | escaped {ds : List Char} {c : Char} (h : Escape ds (.char c)) :
      RangeEnd ('\\' :: ds) c

/-- The items of a class that do not lead it. A dash behind an atom makes a
range, unless it ends the class, and an operator is not written twice. -/
inductive Items : List Char → List ClassItem → Prop where
  | nil : Items [] []
  | atom {ds cs : List Char} {a : Atom} {is : List ClassItem}
      (h : ClassAtom ds a) (hdash : cs.head? ≠ some '-')
      (htwice : ∀ d, ds = [d] → isClassOperator d = true → cs.head? ≠ some d)
      (hrest : Items cs is) : Items (ds ++ cs) (atomItem a :: is)
  | range {ds es cs : List Char} {lo hi : Char} {is : List ClassItem}
      (hlo : ClassAtom ds (.char lo)) (hdash : ds ≠ ['-'])
      (hhi : RangeEnd es hi) (hle : lo ≤ hi) (hrest : Items cs is) :
      Items (ds ++ '-' :: (es ++ cs)) (.range lo hi :: is)
  | dash {ds : List Char} {a : Atom} (h : ClassAtom ds a) (hdash : ds ≠ ['-']) :
      Items (ds ++ ['-']) [atomItem a, .range '-' '-']

/-- What may lead a class: dashes, or a closing bracket. -/
inductive Lead : List Char → List ClassItem → Prop where
  | dashes (n : Nat) :
      Lead (.replicate n '-') (.replicate n (.range '-' '-'))
  | bracket : Lead [']'] [.range ']' ']']

/-- The text of a class between its brackets, whether the class is negated, and
its items. A caret that leads a class negates it, dashes that lead the rest of
it are items, and no class is empty. -/
inductive Class : List Char → Bool → List ClassItem → Prop where
  | plain {cs ds : List Char} {is js : List ClassItem} (hlead : Lead cs is)
      (hitems : Items ds js) (hcaret : (cs ++ ds).head? ≠ some '^')
      (hdash : cs ≠ [']'] → ds.head? ≠ some '-') (hne : cs ++ ds ≠ []) :
      Class (cs ++ ds) false (is ++ js)
  | negated {cs ds : List Char} {is js : List ClassItem} (hlead : Lead cs is)
      (hitems : Items ds js) (hdash : cs ≠ [']'] → ds.head? ≠ some '-')
      (hne : cs ++ ds ≠ []) : Class ('^' :: (cs ++ ds)) true (is ++ js)

/-! ## Members that match one character or none -/

/-- The characters that do not stand for themselves between members. -/
def special : List Char :=
  ['\\', '(', ')', '|', '[', '*', '+', '?', '\x7b', '.', '^', '$']

/-- What an escape means outside of classes. -/
def escapedForm (f : Flags) : Escaped → Form
  | .char c => .ofSet (.char c f.ignoreCase)
  | .property p holds => .ofSet (.property p holds)
  | .anchor a => .look a

/-- A member that matches one character, or looks at a place. -/
inductive Single (f : Flags) : List Char → Form → Prop where
  | char {c : Char} (hc : c ∉ special) :
      Single f [c] (.ofSet (.char c f.ignoreCase))
  | dot : Single f ['.'] (.ofSet (.dot f.dotAll))
  | caret :
      Single f ['^'] (.look (if f.multiLine then .lineStart else .textStart))
  | dollar :
      Single f ['$'] (.look (if f.multiLine then .lineEnd else .textEnd))
  | escape {ds : List Char} {e : Escaped} (h : Escape ds e) :
      Single f ('\\' :: ds) (escapedForm f e)
  | class {ds : List Char} {negated : Bool} {is : List ClassItem}
      (h : Class ds negated is) :
      Single f ('[' :: (ds ++ [']']))
        (.ofSet (.ofItems is negated f.ignoreCase))

/-! ## Repetitions -/

/-- A number with white space around it. -/
inductive Number : List Char → Nat → Prop where
  | mk {us ds vs : List Char} {n : Nat}
      (hus : ∀ c ∈ us, Text.isWhite c = true) (hne : ds ≠ [])
      (hn : number? 10 Text.decimalValue? ds = some n)
      (hvs : ∀ c ∈ vs, Text.isWhite c = true) : Number (us ++ ds ++ vs) n

/-- The text of a count between its braces, with the bounds that it sets. -/
inductive Count : List Char → Nat → Option Nat → Prop where
  | exactly {ds : List Char} {n : Nat} (h : Number ds n) : Count ds n (some n)
  | atLeast {ds : List Char} {n : Nat} (h : Number ds n) :
      Count (ds ++ [',']) n none
  | between {ds es : List Char} {m n : Nat} (h : Number ds m)
      (h' : Number es n) : Count (ds ++ ',' :: es) m (some n)

/-- The sign of a repetition, with its bounds. -/
inductive Quantifier : List Char → Nat → Option Nat → Prop where
  | star : Quantifier ['*'] 0 none
  | plus : Quantifier ['+'] 1 none
  | option : Quantifier ['?'] 0 (some 1)
  | counted {ds : List Char} {lo : Nat} {hi : Option Nat}
      (h : Count ds lo hi) (hlo : lo ≤ maxCount)
      (hhi : ∀ n, hi = some n → n ≤ maxCount ∧ lo ≤ n) :
      Quantifier ('\x7b' :: (ds ++ ['\x7d'])) lo hi

/-! ## Groups -/

/-- The switches in force, and a name or none for each group so far, from
group 0 on. -/
structure Context where
  flags : Flags
  names : List (Option (List Char))

/-- The switches in the head of a group. None is given twice, and a minus
stands before the one that it switches off. -/
structure Switches (ds : List Char) (given : List FlagItem) : Prop where
  written : ds.mapM flagItem? = some given
  nodup : given.Nodup
  settled : given.getLast? ≠ some .minus

/-- The head of a group: the number that it captures under, if it does, and
what is in force inside. -/
inductive Head (t : Context) : List Char → Option Nat → Context → Prop where
  | capture : Head t ['('] (some t.names.length) ⟨t.flags, t.names ++ [none]⟩
  | named {lead name : List Char} (hlead : lead ∈ ["(?P<".toList, "(?<".toList])
      (hname : isName name = true) (hfresh : some name ∉ t.names) :
      Head t (lead ++ name ++ ['>']) (some t.names.length)
        ⟨t.flags, t.names ++ [some name]⟩
  | plain {ds : List Char} {given : List FlagItem} (h : Switches ds given) :
      Head t ("(?".toList ++ ds ++ [':']) none
        ⟨changeFlags t.flags given.reverse, t.names⟩

/-! ## Members and branches -/

/-- What the members of a branch stand for together. -/
def sequenceForm : List Form → Form
  | [] => .empty
  | [f] => f
  | fs => .sequence fs

/-- What branches stand for together. -/
def choiceForm : List Form → Form
  | [] => .empty
  | [f] => f
  | fs => .alternative fs

/-- A form in a group. -/
def groupForm (capture : Option Nat) (f : Form) : Form :=
  match capture with
  | some i => .group i f
  | none => f

/-- What stands right before a place: nothing that could be repeated, a member,
or a repetition that may still be made lazy. -/
inductive Ending where
  | nothing
  | member
  | repetition
  deriving DecidableEq

/-- The text has the finished branches `gs` and, in the branch that is still
open, the members `fs`. It leads from one context to another. -/
inductive Parts : Context → List Char → List Form → List Form → Context →
    Ending → Prop where
  | start (s : Context) : Parts s [] [] [] s .nothing
  | bar {s t : Context} {cs : List Char} {gs fs : List Form} {e : Ending}
      (h : Parts s cs gs fs t e) :
      Parts s (cs ++ ['|']) (gs ++ [sequenceForm fs]) [] t .nothing
  | single {s t : Context} {cs ds : List Char} {gs fs : List Form} {f : Form}
      {e : Ending} (h : Parts s cs gs fs t e) (hf : Single t.flags ds f) :
      Parts s (cs ++ ds) gs (fs ++ [f]) t .member
  | repeated {s t : Context} {cs ds : List Char} {gs fs : List Form} {f : Form}
      {e : Ending} {lo : Nat} {hi : Option Nat}
      (h : Parts s cs gs (fs ++ [f]) t e) (he : e ≠ .nothing)
      (hq : Quantifier ds lo hi) (hlazy : e = .repetition → ds ≠ ['?']) :
      Parts s (cs ++ ds) gs (fs ++ [.repeated lo hi true f]) t .repetition
  | lazily {s t : Context} {cs ds : List Char} {gs fs : List Form} {f : Form}
      {e : Ending} {lo : Nat} {hi : Option Nat}
      (h : Parts s cs gs (fs ++ [f]) t e) (he : e ≠ .nothing)
      (hq : Quantifier ds lo hi) (hlazy : e = .repetition → ds ≠ ['?']) :
      Parts s (cs ++ ds ++ ['?']) gs (fs ++ [.repeated lo hi false f]) t .member
  | switches {s t : Context} {cs ds : List Char} {gs fs : List Form}
      {e : Ending} {given : List FlagItem} (h : Parts s cs gs fs t e)
      (hf : Switches ds given) (hne : given ≠ []) :
      Parts s (cs ++ "(?".toList ++ ds ++ [')']) gs (fs ++ [.empty])
        ⟨changeFlags t.flags given.reverse, t.names⟩ .nothing
  | group {cs hs ds : List Char} {gs fs gs' fs' : List Form}
      {s t u v : Context} {e e' : Ending} {capture : Option Nat}
      (h : Parts s cs gs fs t e) (hhead : Head t hs capture u)
      (hbody : Parts u ds gs' fs' v e') :
      Parts s (cs ++ hs ++ ds ++ [')']) gs
        (fs ++ [groupForm capture (choiceForm (gs' ++ [sequenceForm fs']))])
        ⟨t.flags, v.names⟩ .member

/-- The text of a pattern stands for a form, with a name or none for each
group. -/
def StandsFor (flags : Flags) (source : List Char) (form : Form)
    (names : List (Option (List Char))) : Prop :=
  ∃ gs fs t e, Parts ⟨flags, [none]⟩ source gs fs t e ∧
    form = choiceForm (gs ++ [sequenceForm fs]) ∧ names = t.names

end Grammar

end Codemod.Pattern
