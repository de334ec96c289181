import Codemod.Proofs.Reading
import Codemod.Proofs.Tokens
import Codemod.Shape

/-!
# What shapes spell

The pattern of a shape is text, put together from the patterns of its pieces.
`Shape.regex` is the expression that it is meant to be: the pieces one after
the other, and white space between them where it may stand. `reads_join` says
that the text is read as this expression, whatever characters the tokens hold,
so the escapes in it are right and no piece runs into the next one.

What a slot captures is a pattern of its own. Its expression is a parameter.
-/

namespace Codemod

open Pattern Pattern.Reader

/-- What may stand between pieces. -/
def blanks : Regex := .star true (.one (.property .white true))

theorem reads_blanks {o : Options} {n d : Nat} (hd : 0 < d) :
    Reads o n d "\\s*".toList blanks [] :=
  reads_star hd fun _ _ _ _ _ _ _ => ⟨true, rfl⟩

/-- The expression of a token: its text, and for a word the two ends of a
word. -/
def Token.regex : Token → Regex
  | .word cs =>
      .seq (.look .wordBoundary) (.seq (.text cs) (.look .wordBoundary))
  | .quoted cs => .text cs
  | .sign c => .text [c]

theorem Token.reads {o : Options} {n d : Nat} (t : Token) :
    Reads o n d t.pattern t.regex [] := by
  cases t with
  | word cs =>
      have h : Reads o n d (['\\', 'b'] ++ escape cs ++ ['\\', 'b'])
          (.seq (.seq (.look .wordBoundary) (.text cs))
            (.look .wordBoundary)) [] :=
        (reads_boundary.and (reads_escape cs)).and reads_boundary
      exact h.same (same_seq_assoc _ _ _)
  | quoted cs => exact reads_escape cs
  | sign c => exact reads_escape [c]

namespace Piece

/-- Spaces and tabs. -/
def blankSet : CharSet := ⟨[(0x9, 0x9), (0x20, 0x20)]⟩

/-- The names that a piece gives to groups. -/
def names : Piece → List (List Char)
  | .token _ => []
  | .slot name _ => [name]
  | .indent name => [name]

/-- The expression of a piece; its group has the number `n`. -/
def regex (slots : List Char → Regex) (n : Nat) : Piece → Regex
  | .token t => t.regex
  | .slot _ pattern => .group n (slots pattern)
  | .indent _ =>
      .alt
        (.seq (.look .lineStart) (.group n (.star true (.one blankSet)))) .empty

/-- The expression of what may stand between a piece and the next. -/
def slack : Piece → Regex
  | .indent _ => .empty
  | _ => blanks

/-- The piece can be read: its names are names, and its slots hold patterns
that mean what is said of them. Indentation is only found where lines have
starts. -/
def Readable (slots : List Char → Regex) (o : Options) : Piece → Prop
  | .token _ => True
  | .slot name pattern =>
      isName name = true ∧ ∀ n, Reads o n 7 pattern (slots pattern) []
  | .indent name => isName name = true ∧ o.multiLine = true

theorem reads_indentation {o : Options} {n : Nat} :
    Reads o n 3 "[ \\t]*".toList (.star true (.one blankSet)) [] :=
  reads_star (Nat.le_refl 3) fun _ _ _ _ _ _ _ => ⟨true, rfl⟩

theorem Readable.reads {slots : List Char → Regex} {o : Options} {p : Piece}
    (h : p.Readable slots o) (n : Nat) :
    Reads o n 9 p.pattern (p.regex slots n) p.names := by
  cases p with
  | token t => exact t.reads
  | slot name cs =>
      exact (h.2 (n + 1)).named h.1
  | indent name =>
      have hgroup :
          Reads o n 5 _ (.group n (.star true (.one blankSet))) [name] :=
        reads_indentation.named h.1
      have hline : Reads o n 5 ['^'] (.look .lineStart) [] :=
        reads_lineStart h.2
      have hboth := (hline.before hgroup).optional
      have hfront :
          "(?:^(?P<".toList = "(?:".toList ++ (['^'] ++ "(?P<".toList) := rfl
      have hback : ">[ \\t]*))?".toList =
          ['>'] ++ ("[ \\t]*".toList ++ ([')'] ++ ")?".toList)) := rfl
      have hpattern : pattern (.indent name) =
          "(?:^(?P<".toList ++ name ++ ">[ \\t]*))?".toList := rfl
      rw [hpattern, hfront, hback]
      simp only [List.append_assoc] at hboth ⊢
      exact hboth.mono (by omega)

theorem reads_joint {o : Options} {n : Nat} (p : Piece) :
    Reads o n 9 p.joint p.slack [] := by
  cases p with
  | indent => exact reads_nil
  | token | slot => exact reads_blanks (by omega)

end Piece

namespace Shape

/-- The expression of pieces in a row; their groups are numbered from `n` on. -/
def regex (slots : List Char → Regex) (n : Nat) : List Piece → Regex
  | [] => .empty
  | [p] => p.regex slots n
  | p :: q :: ps =>
    .seq (p.regex slots n)
      (.seq p.slack (regex slots (n + p.names.length) (q :: ps)))

/-- What has the shape of pieces in a row begins with what has the shape of the
first of them. -/
theorem takes_front {slots : List Char → Regex}
    {text : Array Char} {n i j : Nat} {ps qs : List Piece}
    {ms : Marks} (h : Takes text (regex slots n (ps ++ qs)) i j ms) :
    ∃ k ns, Takes text (regex slots n ps) i k ns := by
  induction ps generalizing n i ms with
  | nil =>
      exact ⟨i, [], takes_empty.mpr ⟨rfl, Nat.le_trans h.le h.le_size, rfl⟩⟩
  | cons p ps ih =>
      cases ps with
      | nil =>
          cases qs with
          | nil => exact ⟨j, ms, h⟩
          | cons q qs =>
              obtain ⟨k, ns, -, hp, -⟩ := takes_seq.mp h
              exact ⟨k, ns, hp⟩
      | cons q ps =>
          obtain ⟨k, ns, _, hp, hrest, -⟩ := takes_seq.mp h
          obtain ⟨k', ns', _, hslack, hrest, -⟩ := takes_seq.mp hrest
          obtain ⟨j', l, hfront⟩ := ih hrest
          exact ⟨j', _, takes_seq.mpr ⟨k, ns, _, hp,
            takes_seq.mpr ⟨k', ns', l, hslack, hfront, rfl⟩, rfl⟩⟩

/-- The text of the pattern is read as the expression that the shape stands
for. -/
theorem reads_join {slots : List Char → Regex} {o : Options} {ps : List Piece}
    (h : ∀ p ∈ ps, p.Readable slots o)
    (hnames : (ps.flatMap Piece.names).Nodup) (n : Nat) :
    Reads o n 9 (join ps) (regex slots n ps) (ps.flatMap Piece.names) := by
  induction ps generalizing n with
  | nil => exact reads_nil
  | cons p ps ih =>
      have hp := (h p List.mem_cons_self).reads n
      cases ps with
      | nil => simpa [join, regex] using hp
      | cons q ps =>
          rw [List.flatMap_cons, List.nodup_append] at hnames
          have hrest :=
            ih (fun x hx => h x (List.mem_cons_of_mem _ hx)) hnames.2.1
            (n + p.names.length)
          have hall := (hp.and p.reads_joint).append hrest
            fun x hx hmem => hnames.2.2 x hmem x hx rfl
          rw [join, regex, List.flatMap_cons]
          exact hall.same (same_seq_assoc _ _ _)

/-- The pattern of a shape can be parsed, and means what the shape stands
for. -/
theorem parse_pattern {slots : List Char → Regex} {o : Options} {s : Shape}
    (h : ∀ p ∈ s.pieces, p.Readable slots o)
    (hnames : (s.pieces.flatMap Piece.names).Nodup) :
    ∃ form : Form, Same form.regex (regex slots 1 s.pieces) ∧
      Reader.parse o.flags s.pattern.toList =
        .ok (form, none :: (s.pieces.flatMap Piece.names).map some) := by
  refine Reads.parse (d := 9) ?_ (by decide)
  rw [pattern, String.toList_ofList]
  exact reads_join h hnames 1

end Shape

end Codemod
