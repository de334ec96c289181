import Codemod.Proofs.GrammarComplete
import Codemod.Proofs.Preference

/-!
# Find and replace

What applying a rule does, from the text of its pattern on. The grammar gives
the text one form; the matches are those of this form from left to right, the
preferred one at each place; and they give way to their replacements.

The form is not quite the text as it is written. What all branches of an
alternative begin with stands in front of the alternative, and is settled before
a branch is chosen. So the earlier branch is not always the one that is taken
(`apply_settles_front`).
-/

namespace Codemod.Rule

open Pattern
open Pattern.Grammar (StandsFor standsFor_of_parse standsFor_iff)

/-- Applying a rule is find and replace. The text of the pattern stands for one
form, and the document consists of the matches of this form and the gaps around
them. If every match has a replacement, the result is the gaps with the
replacements between them, and their number is counted; else the first match
without one decides. -/
theorem apply_find_and_replace {name source : String} {options : Options}
    {produce : Hit → Except Error String} {r : Rule}
    (h : Rule.compile name source options produce = .ok r) (document : String) :
    let text := document.toList.toArray
    ∃ form names,
      (∀ form' names', StandsFor options.flags source.toList form' names' ↔
        form' = form ∧ names' = names) ∧
      r.pattern.groupNames = keptNames form names ∧
      r.pattern.engine.plan.regex = .group 0 form.regex ∧
      ∃ ms : List Match, (∀ ms', r.pattern.Occurrences text ms' ↔ ms' = ms) ∧
        document.toList = weave (gaps text 0 ms) (ms.map (·.text text)) ∧
        (∀ rs : List String,
          List.Forall₂ (fun m s => produce (r.hit document m) = .ok s) ms rs →
          r.apply document = .ok ⟨String.ofList
            (weave (gaps text 0 ms) (rs.map String.toList)), ms.length⟩) ∧
        ∀ front m back e, ms = front ++ m :: back →
          (∀ m' ∈ front, ∃ s, produce (r.hit document m') = .ok s) →
          produce (r.hit document m) = .error e →
          r.apply document = .error e := by
  obtain ⟨p, hp, rfl⟩ := compile_eq_ok h
  obtain ⟨form, names, hread, heq⟩ := Pattern.compile_eq_ok hp
  have hregex : p.engine.plan.regex = .group 0 form.regex :=
    regex_of_engine (by rw [heq])
  refine ⟨form, names, standsFor_iff (Reader.parse_of_read hread), by rw [heq],
    hregex, p.allMatches document.toList.toArray, ?_, ?_, ?_, ?_⟩
  · intro ms
    rw [allMatches_iff (whole_compile hp)]
    exact eq_comm
  · have hocc : p.Occurrences document.toList.toArray _ :=
      (allMatches_iff (whole_compile hp)).mpr rfl
    rw [(weave_gaps hocc.ordered).1, slice_zero_size]
  · intro rs hrs
    rw [apply_eq, splice_eq_ok hrs]
    rfl
  · intro front m back e hms hfront hm
    rw [apply_eq, hms, splice_eq_error hfront hm]
    rfl

/-! ## Two patterns -/

/-- The rule that makes a dash of every match of a form. -/
def dash (source : String) (form : Form) : Rule :=
  ⟨"dash", ⟨source, .plain, keptNames form [none],
    .ofRegex (.group 0 form.regex)⟩, fun _ => .ok "-"⟩

theorem compile_dash_pattern {source : String} {form : Form}
    (h : Reader.read {} source.toList = .ok (form, [none])) :
    Pattern.compile source .plain = .ok (dash source form).pattern := by
  rw [Pattern.compile, show Options.plain.flags = {} from rfl, h]
  rfl

theorem compile_dash {source : String} {form : Form}
    (h : Reader.read {} source.toList = .ok (form, [none])) :
    Rule.compile "dash" source .plain (fun _ => .ok "-") =
      .ok (dash source form) := by
  rw [Rule.compile, compile_dash_pattern h]
  rfl

theorem whole_dash {source : String} {form : Form}
    (h : Reader.read {} source.toList = .ok (form, [none])) :
    (dash source form).pattern.Whole :=
  whole_compile (compile_dash_pattern h)

theorem allMatches_dash (text : Array Char) {source : String} {form : Form}
    (h : Reader.read {} source.toList = .ok (form, [none]))
    (hsolid : form.regex.solid = true) :
    (dash source form).pattern.allMatches text = form.regex.allTried text :=
  allMatches_eq_allTried rfl (whole_dash h) hsolid

/-- Every run of `a` becomes a dash, and so does every place without one, but
for the end of a run: `baac` has the matches at 0, from 1 to 3 and at 4. -/
theorem apply_find_and_replace_runs :
    ∃ r, Rule.compile "dash" "a*" .plain (fun _ => .ok "-") = .ok r ∧
      StandsFor {} "a*".toList (.rep 0 none true (.text ['a'])) [none] ∧
      r.pattern.engine.plan.regex =
        .group 0 (.star true (.seq (.one (.single 'a')) .empty)) ∧
      r.pattern.Occurrences "baac".toList.toArray
        [⟨0, 0, [(1, 0), (0, 0)]⟩, ⟨1, 3, [(1, 3), (0, 1)]⟩,
          ⟨4, 4, [(1, 4), (0, 4)]⟩] ∧
      r.apply "baac" = .ok ⟨"-b-c-", 3⟩ := by
  have hread : Reader.read {} "a*".toList =
      .ok (.rep 0 none true (.text ['a']), [none]) := by decide +kernel
  have hmatches : (Form.rep 0 none true (.text ['a'])).regex.allTried
      "baac".toList.toArray = [⟨0, 0, [(1, 0), (0, 0)]⟩,
        ⟨1, 3, [(1, 3), (0, 1)]⟩, ⟨4, 4, [(1, 4), (0, 4)]⟩] := rfl
  have hall := allMatches_dash "baac".toList.toArray hread (by decide +kernel)
  have hocc := (allMatches_iff (whole_dash hread)).mpr (hall.trans hmatches)
  obtain ⟨-, -, -, -, -, ms, hms, -, hok, -⟩ :=
    apply_find_and_replace (compile_dash hread) "baac"
  obtain rfl := (hms _).mp hocc
  have hdashes := hok ["-", "-", "-"] (.cons rfl (.cons rfl (.cons rfl .nil)))
  exact ⟨_, compile_dash hread, standsFor_of_parse (Reader.parse_of_read hread),
    rfl, hocc, hdashes.trans (by decide)⟩

/-- Any characters of a line, and then a form. -/
def lineThen (f : Form) : Form :=
  .seq (.rep 0 none true (.set (.dot false))) f

/-- What the branches of an alternative begin with is settled in front of it. As
they are written, the earlier branch of `.*b|.*c` is preferred and takes `ab`;
but what both begin with takes all of the line, and then only the other branch
can go on. -/
theorem apply_settles_front :
    ∃ r, Rule.compile "dash" ".*b|.*c" .plain (fun _ => .ok "-") = .ok r ∧
      StandsFor {} ".*b".toList (lineThen (.text ['b'])) [none] ∧
      StandsFor {} ".*c".toList (lineThen (.text ['c'])) [none] ∧
      Chosen "abc".toList.toArray
        (.alt (lineThen (.text ['b'])).regex (lineThen (.text ['c'])).regex)
        0 2 [] [false, false, true] ∧
      r.pattern.Occurrences "abc".toList.toArray [⟨0, 3, [(1, 3), (0, 0)]⟩] ∧
      r.apply "abc" = .ok ⟨"-", 1⟩ := by
  have hread : Reader.read {} ".*b|.*c".toList =
      .ok (lineThen (.set ⟨[(98, 99)]⟩), [none]) := by decide +kernel
  have hmatches : (lineThen (.set ⟨[(98, 99)]⟩)).regex.allTried
      "abc".toList.toArray = [⟨0, 3, [(1, 3), (0, 0)]⟩] := rfl
  have hall := allMatches_dash "abc".toList.toArray hread (by decide +kernel)
  have htried : (Regex.alt (lineThen (.text ['b'])).regex
      (lineThen (.text ['c'])).regex).tried "abc".toList.toArray 0 =
      [⟨2, [], [false, false, true]⟩, ⟨3, [], [true, false, false, true]⟩] := by
    decide +kernel
  rw [hmatches] at hall
  refine ⟨_, compile_dash hread, standsFor_of_parse (by decide +kernel),
    standsFor_of_parse (by decide +kernel),
    chosen_of_tried (by decide +kernel) (by decide) htried,
    (allMatches_iff (whole_dash hread)).mpr hall, ?_⟩
  rw [apply_eq, hall]
  rfl

end Codemod.Rule
