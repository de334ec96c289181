import Codemod.Proofs.CheckMode
import Codemod.Proofs.Passes
import Codemod.Proofs.Places

/-!
# Write mode

What a batch in write mode that did not fail has done to the tree, and what it
has said. A file may be listed several times, and then each visit starts from
what the one before it wrote. So what a file holds at a place depends on how
often it was listed before that place (`Passed`), and a visit of the file adds
one pass of the rules, while a visit of any other target adds nothing.
-/

namespace Codemod.Batch

/-- What a file is after a number of passes of the rules, each over what the
one before it wrote. -/
inductive Passed (rules : Rules) (f : File) : Nat → File → Prop where
  | zero : Passed rules f 0 f
  | succ {n : Nat} {g : File} {text migrated : String} (h : Passed rules f n g)
      (htext : g.read = .ok text) (hrun : (rules.run text).2 = .ok migrated) :
      Passed rules f (n + 1) { g with contents := .text migrated }

variable {rules : Rules} {p p' : Progress} {tree : FileTree} {path q : String}
  {paths : List String} {done : Summary} {f g : File}

theorem Passed.passes {n : Nat} (h : Passed rules f n g) (hn : n ≠ 0) :
    ∃ text final, f.read = .ok text ∧ rules.passes n text = .ok final ∧
      g.read = .ok final := by
  induction h with
  | zero => exact absurd rfl hn
  | @succ n g text migrated h htext hrun ih =>
      by_cases hzero : n = 0
      · subst hzero
        cases h
        exact ⟨text, migrated, htext, Rules.passes_succ_last rfl hrun,
          File.read_overwritten htext _⟩
      · obtain ⟨first, between, hfirst, hpasses, hbetween⟩ := ih hzero
        cases hbetween.symm.trans htext
        exact ⟨first, migrated, hfirst, Rules.passes_succ_last hpasses hrun,
          File.read_overwritten htext _⟩

/-- A visit adds a pass to the file that it leads to. -/
theorem Visited.passed (h : Visited rules .write p path (p', none))
    (hsame : p.tree.fileNames? path = p.tree.fileNames? q)
    (hf : p.tree.file? q = some f) :
    ∃ text migrated, f.read = .ok text ∧ (rules.run text).2 = .ok migrated ∧
      p'.tree.file? q = some { f with contents := .text migrated } := by
  have hisFile : p.tree.isFile q = true := FileTree.isFile_iff.mpr ⟨f, hf⟩
  obtain ⟨names, hnames, hlocate⟩ := FileTree.fileNames?_of_isFile hisFile
  have halike := h.alike
  cases h with
  | skipped hfile =>
      rw [FileTree.fileNames?, if_neg (by rw [hfile]; exact Bool.false_ne_true),
        hnames] at hsame
      cases hsame
  | @done text migrated told after hfile hread hrun hstore =>
      obtain ⟨names', hnames', hlocate'⟩ := FileTree.fileNames?_of_isFile hfile
      have heq : p.tree.locate q = p.tree.locate path := by
        rw [hnames', hnames] at hsame
        rw [hlocate, hlocate', Option.some.inj hsame]
      have hlater : after.locate q = after.locate path := by
        rw [halike.locate, halike.locate, heq]
      obtain ⟨f', hf', hafter⟩ :=
        FileTree.file?_of_writeText (writeText_of_store hstore)
      cases hf'.symm.trans ((FileTree.file?_congr heq).symm.trans hf)
      refine ⟨text, migrated,
        (FileTree.readText_of_file? hf').symm.trans hread, by rw [hrun], ?_⟩
      rw [FileTree.file?_congr hlater, hafter]

/-- After a batch, a file has had as many passes as it was listed. -/
theorem run_passed (h : (run rules .write tree paths).result = .ok done)
    (hf : tree.file? q = some f) :
    ∃ g, (run rules .write tree paths).tree.file? q = some g ∧
      Passed rules f (paths.countP fun path => tree.fileNames? path ==
        tree.fileNames? q) g := by
  obtain ⟨-, hlast⟩ := run_of_reached h
  rw [← hlast]
  refine (places_induction (I := fun front p => tree.Alike p.tree ∧
    ∃ g, p.tree.file? q = some g ∧ Passed rules f
      (front.countP fun path => tree.fileNames? path == tree.fileNames? q) g)
    h ⟨.refl _, f, hf, .zero⟩ ?_).2
  intro k path _ hvisited hbefore
  obtain ⟨halike, g, hg, hpassed⟩ := hbefore
  refine ⟨halike.trans hvisited.alike, ?_⟩
  rw [List.countP_append, List.countP_singleton]
  by_cases hsame : tree.fileNames? path = tree.fileNames? q
  · rw [if_pos (beq_iff_eq.mpr hsame)]
    rw [← halike.fileNames?, ← halike.fileNames?] at hsame
    obtain ⟨text, migrated, htext, hrun, hafter⟩ := hvisited.passed hsame hg
    exact ⟨_, hafter, .succ hpassed htext hrun⟩
  · rw [if_neg (by simpa using hsame), Nat.add_zero]
    refine ⟨g, ?_, hpassed⟩
    rw [hvisited.untouched fun names hnames hmem => ?_, hg]
    obtain ⟨path', hpath', hnames'⟩ := List.mem_filterMap.mp hmem
    rw [List.mem_singleton.mp hpath', halike.fileNames?] at hnames'
    rw [halike.fileNames?] at hnames
    exact hsame (hnames'.trans hnames.symm)

theorem run_counts {mode : Mode}
    (h : (run rules mode tree paths).result = .ok done) :
    done.processed = paths.countP tree.isFile ∧
      done.skipped = paths.countP fun path => !tree.isFile path := by
  rw [← (run_of_reached h).1]
  refine (places_induction (I := fun front p => tree.Alike p.tree ∧
    p.summary.processed = front.countP tree.isFile ∧ p.summary.skipped =
      front.countP fun path => !tree.isFile path) h ⟨.refl _, rfl, rfl⟩ ?_).2
  intro k path _ hvisited hbefore
  obtain ⟨halike, hprocessed, hskipped⟩ := hbefore
  refine ⟨halike.trans hvisited.alike, ?_⟩
  rw [List.countP_append, List.countP_append, List.countP_singleton,
    List.countP_singleton, ← hprocessed, ← hskipped, ← halike.isFile]
  generalize reached rules mode tree paths (k + 1) = after at hvisited ⊢
  cases hvisited with
  | skipped hfile =>
      rw [hfile]
      exact ⟨rfl, rfl⟩
  | done hfile =>
      rw [hfile]
      exact ⟨rfl, rfl⟩

/-- In write mode the files that count as changed are those that hold other
bytes after the visit at their place than before it. -/
theorem run_write_changed
    (h : (run rules .write tree paths).result = .ok done) :
    done.changed = picked
      (fun k path => (run rules .write tree (paths.take k)).tree.bytes? path !=
      (run rules .write tree (paths.take (k + 1))).tree.bytes? path) paths := by
  refine changed_eq_picked h fun k path _ hvisited => ?_
  simp only [run_take_tree]
  generalize reached rules .write tree paths (k + 1) = after at hvisited ⊢
  cases hvisited with
  | skipped => simp [Summary.changed_append, Summary.ofSkipped]
  | done _ hread _ hstore =>
      rw [bytes?_bne_of_writeText hread (writeText_of_store hstore)]
      rfl

/-- A file that is listed under one path only is named as often as that path is
listed. -/
theorem countP_fileNames {path : String}
    (hone : ∀ q ∈ paths, tree.fileNames? path = tree.fileNames? q → path = q) :
    (paths.countP fun q => tree.fileNames? q == tree.fileNames? path) =
      paths.count path := by
  rw [List.count]
  refine List.countP_congr fun q hq => ?_
  rw [beq_iff_eq, beq_iff_eq]
  refine ⟨fun hsame => (hone q hq hsame.symm).symm, fun heq => ?_⟩
  rw [heq]

/-- A batch in write mode that does not fail, in which no file is listed under
two paths, keeps the directories and the files as such. A file that is listed
holds afterwards what as many passes of the rules make of its text as it is
listed times, and every other file is as it was. Each target is processed or
skipped, and skipped if it is no regular file. The changed files are those that
the visit at their place has changed, and two lines are said of every file. -/
theorem run_write_effect (h : (run rules .write tree paths).result = .ok done)
    (hone : ∀ path ∈ paths, ∀ q ∈ paths, tree.isFile path = true →
      tree.fileNames? path = tree.fileNames? q → path = q) :
    tree.Alike (run rules .write tree paths).tree ∧
    (∀ path ∈ paths, tree.isFile path = true → ∃ text final,
      tree.readText path = .ok text ∧
      rules.passes (paths.count path) text = .ok final ∧
      (run rules .write tree paths).tree.readText path = .ok final) ∧
    (∀ path, Untouched tree paths path →
      (run rules .write tree paths).tree.file? path = tree.file? path) ∧
    done.processed + done.skipped = paths.length ∧
    (done.skipped = paths.countP fun path => !tree.isFile path) ∧
    (done.changed = picked (fun k path =>
      (run rules .write tree (paths.take k)).tree.bytes? path !=
        (run rules .write tree (paths.take (k + 1))).tree.bytes? path) paths) ∧
    (run rules .write tree paths).lines =
      ((paths.filter tree.isFile).flatMap fun path =>
        [s!"Fixing {path}...", s!"Fixed {path}"]) ++
        ["All files processed!"] := by
  obtain ⟨hprocessed, hskipped⟩ := run_counts h
  refine ⟨?_, ?_, ?_, ?_, hskipped, run_write_changed h, ?_⟩
  · rw [run_tree]
    exact visitAll_alike rules .write { tree } paths
  · intro path hmem hfile
    obtain ⟨f, hf⟩ := FileTree.isFile_iff.mp hfile
    obtain ⟨g, hg, hpassed⟩ := run_passed h hf
    rw [countP_fileNames fun q hq => hone path hmem q hq hfile] at hpassed
    obtain ⟨text, final, htext, hpasses, hfinal⟩ :=
      hpassed.passes (Nat.ne_of_gt (List.count_pos_iff.mpr hmem))
    exact ⟨text, final, (FileTree.readText_of_file? hf).trans htext, hpasses,
      (FileTree.readText_of_file? hg).trans hfinal⟩
  · intro path huntouched
    rw [run_tree]
    exact visitAll_untouched rules .write huntouched
  · have hall := List.length_eq_countP_add_countP tree.isFile (l := paths)
    simp only [Bool.not_eq_true, Bool.decide_eq_false] at hall
    rw [hprocessed, hskipped, hall]
  · obtain ⟨p, hp, -⟩ := run_eq_ok_iff.mp h
    obtain ⟨counted, -, hlines⟩ := visitAll_lines hp
    rw [run_of_done hp, hlines]
    rfl

/-- A rule that wraps a call does so again when a file is visited again. -/
theorem run_write_effect_wraps :
    let paths := ["old/a", "old", "old/a"]
    let done : Summary :=
      { processed := 2, changed := ["old/a", "old/a"], skipped := 1 }
    ∃ r, Rule.compile "wrap" (Shape.code "old()").pattern .plain
        (Template.produce [.text "new(old())"]) = .ok r ∧
      (run [r] .write drafts paths).result = .ok done ∧
      (∀ path ∈ paths, ∀ q ∈ paths, drafts.isFile path = true →
        drafts.fileNames? path = drafts.fileNames? q → path = q) ∧
      (run [r] .write drafts paths).tree.readText "old/a" =
        .ok "new(new(old()))" := by
  intro paths done
  obtain ⟨haccepted, hclosed, hsolid, hold, -, hwrapped⟩ := call_checked
  obtain ⟨r, hr, -, hmade⟩ :=
    Migration.made_of_accepted "wrap" [.text "new(old())"] haccepted
      List.nodup_nil
  have hproduce : ∀ hit, r.produce hit = .ok "new(old())" := fun hit => by
    rw [hmade.produce]
    rfl
  have hfirst : Rules.run [r] "old()" =
      ([.ruleApplied r.name 1], .ok "new(old())") := by
    rw [Rule.run_once hmade.denotes hclosed hsolid hold (hproduce _)]
    rfl
  have hsecond : Rules.run [r] "new(old())" =
      ([.ruleApplied r.name 1], .ok "new(new(old()))") := by
    rw [Rule.run_once hmade.denotes hclosed hsolid hwrapped (hproduce _)]
    rfl
  have hdone : (run [r] .write drafts paths).result = .ok done := by
    let between :=
      drafts.replace ["old", "a"] (.file { contents := .text "new(old())" })
    let after := between.replace ["old", "a"]
      (.file { contents := .text "new(new(old()))" })
    have hstore : store .write drafts "old/a" "new(old())" = .ok between := rfl
    have hstore' : store .write between "old/a" "new(new(old()))" = .ok after :=
      rfl
    rw [run, visitAll_cons_of_done (visit_of_file rfl rfl hfirst hstore),
      visitAll_cons_of_done (visit_of_skipped rfl),
      visitAll_cons_of_done (visit_of_file rfl rfl hsecond hstore')]
    rfl
  have hone : ∀ path ∈ paths, ∀ q ∈ paths, drafts.isFile path = true →
      drafts.fileNames? path = drafts.fileNames? q → path = q := by
    have hfile : drafts.fileNames? "old/a" = some ["old", "a"] := rfl
    have hdirectory : drafts.fileNames? "old" = none := rfl
    simp [paths, hfile, hdirectory]
  obtain ⟨-, htexts, -⟩ := run_write_effect hdone hone
  obtain ⟨text, final, hread, hpasses, hfinal⟩ :=
    htexts "old/a" (by simp [paths]) rfl
  have htext : drafts.readText "old/a" = .ok "old()" := rfl
  cases htext.symm.trans hread
  have hcount : paths.count "old/a" = 2 := rfl
  have htwice : Rules.passes [r] 2 "old()" = .ok "new(new(old()))" := by
    rw [Rules.passes_succ (by rw [hfirst]),
      Rules.passes_succ (by rw [hsecond]), Rules.passes]
  rw [hcount] at hpasses
  cases htwice.symm.trans hpasses
  exact ⟨r, hr, hdone, hone, hfinal⟩

end Codemod.Batch
