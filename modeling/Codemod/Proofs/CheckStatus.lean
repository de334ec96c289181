import Codemod.CommandLine
import Codemod.Proofs.Arguments
import Codemod.Proofs.CheckMode
import Codemod.Proofs.SecondPass

/-!
# The exit status in check mode

With `--check` the program ends with status zero if and only if there is
nothing to do: the targets are known, and each that is a file is a text that
the rules leave as it is (`Clean`). Such a batch changes nothing in write mode
either. It writes every text back as it was, which keeps all that the tree
holds, and it can stop only at a file that cannot be written.
-/

namespace Codemod

namespace FileTree

/-- The trees hold the same under all names. -/
structure Same (t t' : FileTree) : Prop where
  workDir : t'.workDir = t.workDir
  entry : ∀ names, t'.entry? names = t.entry? names

namespace Same

variable {t t' t'' : FileTree}

theorem refl (t : FileTree) : t.Same t :=
  ⟨rfl, fun _ => rfl⟩

theorem trans (h : t.Same t') (h' : t'.Same t'') : t.Same t'' :=
  ⟨h'.workDir.trans h.workDir,
    fun names => (h'.entry names).trans (h.entry names)⟩

theorem alike (h : t.Same t') : t.Alike t' :=
  ⟨h.workDir, fun names => by rw [h.entry], fun names => by rw [h.entry]⟩

theorem file? (h : t.Same t') (path : String) :
    t'.file? path = t.file? path := by
  simp only [FileTree.file?, h.alike.locate, h.entry]

end Same

/-- Writing a text back as it was changes nothing. -/
theorem same_of_writeText {t t' : FileTree} {path text : String}
    (hread : t.readText path = .ok text)
    (hwrite : t.writeText path text = .ok t') : t.Same t' := by
  obtain ⟨names, f, hnames, hf, -, rfl⟩ := writeText_eq_ok_iff.mp hwrite
  rw [readText_of_file? (file?_eq_some_iff.mpr ⟨names, hnames, hf⟩)] at hread
  have htext : f.contents = .text text := (File.read_eq_ok_iff.mp hread).2
  refine ⟨rfl, fun k => ?_⟩
  rw [find_replace (ne_nil_of_file hf), ← htext]
  split
  · next hk =>
      rw [hk, hf]
      rfl
  · rfl

/-- A file can be written unless that is forbidden. -/
theorem writeText_eq_error {t : FileTree}
    {path text : String} {f : File} {why : FileFault}
    (hf : t.file? path = some f) (h : t.writeText path text = .error why) :
    f.writable = false ∧ why = f.writeFault := by
  obtain ⟨names, hnames, hentry⟩ := file?_eq_some_iff.mp hf
  rw [writeText_of_file? hnames hentry] at h
  split at h
  · cases h
  · next hwritable =>
      cases h
      exact ⟨Bool.eq_false_iff.mpr hwritable, rfl⟩

end FileTree

namespace Batch

variable {rules : Rules} {mode : Mode} {tree : FileTree} {path : String}
  {paths : List String}

/-- Every target that is a file can be read as a text that the rules leave as
it is. -/
def Clean (rules : Rules) (tree : FileTree) (paths : List String) : Prop :=
  ∀ path ∈ paths, tree.isFile path = true →
    ∃ text, tree.readText path = .ok text ∧ (rules.run text).2 = .ok text

theorem clean_cons : Clean rules tree (path :: paths) ↔
    Clean rules tree [path] ∧ Clean rules tree paths := by
  rw [Clean, List.forall_mem_cons, Clean, List.forall_mem_singleton, Clean]

theorem preview_clean_iff :
    (∃ first, preview rules tree path = .ok first ∧ first.changed = []) ↔
      Clean rules tree [path] := by
  rw [Clean, List.forall_mem_singleton]
  cases hfile : tree.isFile path with
  | false => simp [preview, hfile, Summary.ofSkipped]
  | true =>
      cases hread : tree.readText path with
      | error why => simp [preview, hfile, hread]
      | ok text =>
          cases hrun : (rules.run text).2 with
          | error e => simp [preview, hfile, hread, hrun, Except.map]
          | ok migrated =>
              simp [preview, hfile, hread, hrun, Except.map, Summary.ofFile]

theorem forecast_clean_iff :
    (∃ done, forecast rules tree paths = .ok done ∧ done.changed = []) ↔
      Clean rules tree paths := by
  induction paths with
  | nil => simp [forecast, Clean]
  | cons path paths ih =>
      rw [clean_cons, ← preview_clean_iff, ← ih]
      cases hfirst : preview rules tree path with
      | error e => simp [forecast_cons_of_error hfirst]
      | ok first =>
          rw [forecast_cons_of_ok hfirst]
          cases forecast rules tree paths with
          | error e => simp [Except.map]
          | ok rest => simp [Except.map, Summary.changed_append]

/-- A batch in check mode finds nothing to do if and only if all targets are
clean. -/
theorem run_check_clean_iff :
    (∃ done, (run rules .check tree paths).result = .ok done ∧
      done.changed = []) ↔
      Clean rules tree paths := by
  rw [check_result_eq_forecast]
  exact forecast_clean_iff

theorem Clean.of_same {tree' : FileTree}
    (h : Clean rules tree paths) (hsame : tree.Same tree') :
    Clean rules tree' paths := by
  intro path hmem hfile
  rw [hsame.alike.isFile] at hfile
  obtain ⟨text, hread, hrun⟩ := h path hmem hfile
  obtain ⟨f, hf⟩ := FileTree.isFile_iff.mp hfile
  refine ⟨text, ?_, hrun⟩
  rw [FileTree.readText_of_file? ((hsame.file? path).trans hf)]
  exact (FileTree.readText_of_file? hf).symm.trans hread

theorem Clean.visited {p : Progress} {r : Progress × Option Error}
    (h : Clean rules p.tree paths)
    (hmem : path ∈ paths) (hvisited : Visited rules mode p path r) :
    p.tree.Same r.1.tree := by
  cases hvisited with
  | skipped | stopped => exact .refl _
  | done hfile hread hrun hstore =>
      obtain ⟨text, htext, hsame⟩ := h path hmem hfile
      cases htext.symm.trans hread
      rw [hrun] at hsame
      cases hsame
      rcases store_eq_ok_iff.mp hstore with ⟨-, rfl⟩ | ⟨-, hwrite⟩
      · exact .refl _
      · exact FileTree.same_of_writeText hread hwrite

/-- A batch over clean targets leaves everything as it was. -/
theorem Clean.run_same (h : Clean rules tree paths) (mode : Mode) :
    tree.Same (run rules mode tree paths).tree := by
  rw [run_tree]
  refine visitAll_keeps (I := fun p => tree.Same p.tree)
    (fun p path hmem r hp hvisited => ?_) (.refl tree)
  exact hp.trans ((h.of_same hp).visited hmem hvisited)

/-- A batch over clean targets fails at most at a file that cannot be
written. -/
theorem Clean.run_result (h : Clean rules tree paths) (mode : Mode) :
    (∃ done, (run rules mode tree paths).result = .ok done) ∨
      ∃ path ∈ paths, ∃ f, tree.file? path = some f ∧ f.writable = false ∧
        (run rules mode tree paths).result =
          .error (.writeFailed path f.writeFault) := by
  cases hresult : (run rules mode tree paths).result with
  | ok done => exact .inl ⟨done, rfl⟩
  | error e =>
      right
      obtain ⟨k, path, _, told, hpath, -, hfile, hraises, -⟩ :=
        (run_fails_iff rules mode tree paths e).mp hresult
      have hmem : path ∈ paths := List.mem_of_getElem? hpath
      have hfront : Clean rules tree (paths.take k) :=
        fun q hq => h q (List.mem_of_mem_take hq)
      have hsame := hfront.run_same mode
      generalize (run rules mode tree (paths.take k)).tree =
        before at hraises hsame
      obtain ⟨f, hf⟩ := FileTree.isFile_iff.mp hfile
      obtain ⟨text, htext, hrun⟩ :=
        h.of_same hsame path hmem (by rw [hsame.alike.isFile, hfile])
      cases hraises with
      | read hread => cases htext.symm.trans hread
      | rule hread hfails =>
          cases htext.symm.trans hread
          rw [hfails] at hrun
          cases hrun
      | write _ _ _ hwrite =>
          obtain ⟨hwritable, rfl⟩ :=
            FileTree.writeText_eq_error ((hsame.file? path).trans hf) hwrite
          exact ⟨path, hmem, f, hf, hwritable, rfl⟩

end Batch

namespace Migration

/-- The rules leave a call as it is that is no part of what they look for. -/
theorem run_draft {r₁ r₂ r₃ r₄ r₅ : Rule} (h : Ruleset r₁ r₂ r₃ r₄ r₅) :
    (Rules.run [r₁, r₂, r₃, r₄, r₅] "old()").2 = .ok "old()" := by
  have htaken :
      ∀ q ∈ [Old.twoImports, Old.oneUser, Old.twoUsers, Old.labelOrVisible],
      (meaning q).solid = true ∧
        (meaning q).allTaken 0 none "old()".toList = [] := by
    decide +kernel
  have hwithout :
      ∀ q ∈ [Old.twoImports, Old.oneUser, Old.twoUsers, Old.labelOrVisible],
      Without q "old()" := by
    intro q hq
    obtain ⟨hsolid, hnone⟩ := htaken q hq
    exact without_of_allTaken hsolid hnone
  have hsettled : Settled "old()" :=
    ⟨hwithout _ (by simp), hwithout _ (by simp), hwithout _ (by simp)⟩
  exact h.run_of_settled hsettled (Rule.apply_eq_self h.labelOrVisible.denotes
      (hwithout Old.labelOrVisible (by simp)))

end Migration

namespace CommandLine

open Batch

variable {rules : Rules} {tree : FileTree} {s : Settings} {named : List String}

theorem migrate_tree (rules : Rules) (tree : FileTree)
    (s : Settings) (targets : List String) :
    (migrate rules tree s targets).tree =
      (Batch.run rules s.mode tree targets).tree := by
  rw [migrate]
  cases (Batch.run rules s.mode tree targets).result <;> rfl

theorem migrate_of_error {targets : List String} {e : Error}
    (h : (Batch.run rules s.mode tree targets).result = .error e) :
    migrate rules tree s targets =
      failed (Batch.run rules s.mode tree targets).tree
      (Batch.run rules s.mode tree targets).lines "Migration aborted" e := by
  rw [migrate]
  simp only [h]

theorem migrate_exit_iff {targets : List String} :
    (migrate rules tree s targets).exit = 0 ↔
    ∃ done, (Batch.run rules s.mode tree targets).result = .ok done ∧
      (s.mode = .check → done.changed = []) := by
  rw [migrate]
  cases (Batch.run rules s.mode tree targets).result with
  | error e => simp [failed]
  | ok done => simp [Decidable.imp_iff_not_or]

theorem execute_of_named (hrules : Migration.rules = .ok rules)
    (hlist : s.listRules = false) (hnamed : namedTargets tree s = .ok named) :
    execute tree s = migrate rules tree s (rooted s named) := by
  rw [execute, hrules, executeWith]
  simp only [hlist, hnamed, Bool.false_eq_true, if_false]

theorem execute_of_not_named {e : Error} (hrules : Migration.rules = .ok rules)
    (hlist : s.listRules = false) (hnamed : namedTargets tree s = .error e) :
    execute tree s = failed tree []
      ("Failed to load manifest " ++ s.manifest.getD "") e := by
  rw [execute, hrules, executeWith]
  simp only [hlist, hnamed, Bool.false_eq_true, if_false]

theorem run_of_parse {args : List String} (h : parse args = .ok s) :
    run tree args = execute tree s := by
  rw [run, h]

/-- The exit status of a run in check mode. -/
theorem execute_check (tree : FileTree) (hrules : Migration.rules = .ok rules)
    (hcheck : s.check = true) (hlist : s.listRules = false) :
    (execute tree s).tree = tree ∧ ((execute tree s).exit = 0 ↔ ∃ named,
      namedTargets tree s = .ok named ∧ Clean rules tree (rooted s named)) := by
  have hmode : s.mode = .check := if_pos hcheck
  cases hnamed : namedTargets tree s with
  | error e =>
      rw [execute_of_not_named hrules hlist hnamed]
      exact ⟨rfl, by simp [failed]⟩
  | ok named =>
      rw [execute_of_named hrules hlist hnamed, migrate_tree, migrate_exit_iff,
        hmode, run_tree, visitAll_check_tree]
      simp [← run_check_clean_iff]

/-- A run over clean targets. -/
theorem execute_clean (hrules : Migration.rules = .ok rules)
    (hlist : s.listRules = false) (hnamed : namedTargets tree s = .ok named)
    (hclean : Clean rules tree (rooted s named)) :
    tree.Same (execute tree s).tree ∧ ((execute tree s).exit = 0 ∨
      ∃ path ∈ rooted s named, ∃ f, tree.file? path = some f ∧
      f.writable = false ∧ (execute tree s).exit = 1 ∧ (execute tree s).stderr =
        failureLines "Migration aborted" (.writeFailed path f.writeFault)) := by
  rw [execute_of_named hrules hlist hnamed]
  refine ⟨by rw [migrate_tree]; exact hclean.run_same s.mode, ?_⟩
  rcases hclean.run_result s.mode with ⟨done, hdone⟩
    | ⟨path, hmem, f, hf, hwritable, herror⟩
  · left
    rw [migrate_exit_iff]
    refine ⟨done, hdone, fun hmode => ?_⟩
    obtain ⟨done', hdone', hchanged⟩ := run_check_clean_iff.mpr hclean
    rw [hmode, hdone'] at hdone
    cases hdone
    exact hchanged
  · refine .inr ⟨path, hmem, f, hf, hwritable, ?_⟩
    rw [migrate_of_error herror]
    exact ⟨rfl, rfl⟩

/-- Arguments that ask for a migration ask, with `--check` among them, for the
same in check mode. The run then leaves the tree as it is, and ends with status
zero if and only if the manifest, if there is one, can be loaded, and every
target that is a file can be read as a text that the rules leave as it is. If
it ends so, the run without the switch leaves everything as it was, be it that
it succeeds or that it stops at a file that cannot be written. -/
theorem run_with_check (tree : FileTree)
    {front back : List String} {s : Settings}
    (hparse : parse (front ++ back) = .ok s) (hcheck : s.check = false)
    (hlist : s.listRules = false) (hopen : Arguments.Open front) :
    ∃ rules, Migration.rules = .ok rules ∧
    (run tree (front ++ "--check" :: back)).tree = tree ∧
    ((run tree (front ++ "--check" :: back)).exit = 0 ↔
      ∃ named, namedTargets tree s = .ok named ∧
        ∀ path ∈ rooted s named, tree.isFile path = true → ∃ text,
          tree.readText path = .ok text ∧ (rules.run text).2 = .ok text) ∧
    ((run tree (front ++ "--check" :: back)).exit = 0 →
      tree.Same (run tree (front ++ back)).tree ∧
      ((run tree (front ++ back)).exit = 0 ∨ ∃ path ∈ targets tree s, ∃ f,
        tree.file? path = some f ∧ f.writable = false ∧
        (run tree (front ++ back)).exit = 1 ∧
        (run tree (front ++ back)).stderr = failureLines "Migration aborted"
          (.writeFailed path f.writeFault))) := by
  obtain ⟨r₁, r₂, r₃, r₄, r₅, hrules, -⟩ := Migration.rules_eq_ok
  have hparse' := Arguments.parse_insert_check hparse hcheck hopen
  rw [run_of_parse hparse, run_of_parse hparse']
  obtain ⟨htree, hexit⟩ :=
    execute_check tree (s := { s with check := true }) hrules rfl hlist
  refine ⟨_, hrules, htree, hexit, fun hzero => ?_⟩
  obtain ⟨named, hnamed, hclean⟩ := hexit.mp hzero
  have htargets : targets tree s = rooted s named := by
    rw [targets, show namedTargets tree s = .ok named from hnamed]
  rw [htargets]
  exact execute_clean hrules hlist hnamed hclean

/-- Nothing is to be done in a directory with a draft that has no old code in
it. -/
theorem run_with_check_drafts :
    let front := ["-C", "old"]
    let back := ["a", "."]
    parse (front ++ back) = .ok { root := some "old", paths := back } ∧
    (run drafts (front ++ "--check" :: back)).exit = 0 ∧
    drafts.Same (run drafts (front ++ back)).tree ∧
    (run drafts (front ++ back)).exit = 0 := by
  intro front back
  have hparse : parse (front ++ back) =
      .ok { root := some "old", paths := back } := by decide +kernel
  have hopen : Arguments.Open front :=
    ⟨_, rfl, rfl, by simp [Arguments.State.waits]⟩
  obtain ⟨rules, hrules, -, hexit, hplain⟩ :=
    run_with_check drafts hparse rfl rfl hopen
  obtain ⟨r₁, r₂, r₃, r₄, r₅, hrules', -, hset⟩ := Migration.rules_eq_ok
  cases hrules.symm.trans hrules'
  have hfile : drafts.file? "old/a" = some { contents := .text "old()" } := rfl
  have hdirectory : drafts.isFile "old/." = false := rfl
  have hzero : (run drafts (front ++ "--check" :: back)).exit = 0 := by
    refine hexit.mpr ⟨back, rfl, fun path hmem hisFile => ?_⟩
    rcases List.mem_pair.mp hmem with rfl | rfl
    · exact ⟨_, rfl, Migration.run_draft hset⟩
    · cases hdirectory.symm.trans hisFile
  obtain ⟨hsame, hexit' | ⟨path, hmem, f, hf, hwritable, -⟩⟩ := hplain hzero
  · exact ⟨hparse, hzero, hsame, hexit'⟩
  · rcases List.mem_pair.mp hmem with rfl | rfl
    · cases hfile.symm.trans hf
      cases hwritable
    · cases hdirectory.symm.trans (FileTree.isFile_iff.mpr ⟨f, hf⟩)

end CommandLine

end Codemod
