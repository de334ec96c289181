import Codemod.Proofs.CheckMode
import Mathlib.Data.List.Perm.Basic

/-!
# The order of the targets

If no file is listed twice, a batch may take its targets in any order.
`Completed` is a batch that does not fail, reduced to what it does to the tree
and what it counts. Two neighbours can change places, since a target only reads
and writes the file that it leads to (`Handled.swap`), and neighbours that
change places lead from any order to any other. The counts are the same then,
and the changed files are the same in another order.
-/

namespace Codemod

namespace FileTree

variable {t u v : FileTree} {path q text text' : String}

theorem replace_comm {names names' : List String}
    (hne : names ≠ names') (e e' : Entry) :
    (t.replace names e).replace names' e' =
      (t.replace names' e').replace names e := by
  rw [replace, replace, replace, replace, FileTree.mk.injEq]
  refine ⟨?_, rfl⟩
  rw [List.map_map, List.map_map]
  refine List.map_congr_left fun x _ => ?_
  by_cases hx : x.1 = names
  · have hx' : x.1 ≠ names' := fun h => hne (hx.symm.trans h)
    simp [hx, hne]
  · by_cases hx' : x.1 = names'
    · simp [hx', hne.symm]
    · simp [hx, hx']

theorem readText_congr (h : u.file? q = t.file? q) (hfile : t.isFile q = true) :
    u.readText q = t.readText q := by
  obtain ⟨f, hf⟩ := isFile_iff.mp hfile
  rw [readText_of_file? hf, readText_of_file? (h.trans hf)]

/-- Texts that are written to two files can be written in the other order. -/
theorem writeText_comm (h : t.writeText path text = .ok u)
    (h' : u.writeText q text' = .ok v) (hne : t.locate path ≠ t.locate q) :
    ∃ u', t.writeText q text' = .ok u' ∧ u'.writeText path text = .ok v := by
  have halike := alike_of_writeText h
  obtain ⟨names, f, hnames, hf, hwritable, rfl⟩ := writeText_eq_ok_iff.mp h
  obtain ⟨names', f', hnames', hf', hwritable', rfl⟩ :=
    writeText_eq_ok_iff.mp h'
  rw [halike.locate] at hnames'
  have hother : names ≠ names' := fun heq => hne (by rw [hnames, hnames', heq])
  have hnil : names ≠ [] := ne_nil_of_file hf
  have hnil' : names' ≠ [] := ne_nil_of_file hf'
  rw [find_replace hnil, if_neg hother.symm] at hf'
  have hfirst : t.writeText q text' = .ok _ :=
    writeText_eq_ok_iff.mpr ⟨names', f', hnames', hf', hwritable', rfl⟩
  refine ⟨_, hfirst, writeText_eq_ok_iff.mpr
    ⟨names, f, ?_, ?_, hwritable, replace_comm hother _ _⟩⟩
  · rw [(alike_of_writeText hfirst).locate, hnames]
  · rw [find_replace hnil', if_neg hother, hf]

end FileTree

namespace Batch

/-! ## Counts in another order -/

/-- The counts are the same, and the changed files are the same in some
order. -/
structure Summary.Perm (s t : Summary) : Prop where
  processed : s.processed = t.processed
  changed : s.changed.Perm t.changed
  skipped : s.skipped = t.skipped

namespace Summary.Perm

variable {s t u : Summary}

theorem refl (s : Summary) : s.Perm s := ⟨rfl, .refl _, rfl⟩

theorem trans (h : s.Perm t) (h' : t.Perm u) : s.Perm u :=
  ⟨h.processed.trans h'.processed, h.changed.trans h'.changed,
    h.skipped.trans h'.skipped⟩

theorem append_left (s : Summary) (h : t.Perm u) : (s ++ t).Perm (s ++ u) :=
  ⟨congrArg (s.processed + ·) h.processed, h.changed.append_left s.changed,
    congrArg (s.skipped + ·) h.skipped⟩

theorem swap (s t u : Summary) : (s ++ (t ++ u)).Perm (t ++ (s ++ u)) := by
  refine ⟨Nat.add_left_comm _ _ _, ?_, Nat.add_left_comm _ _ _⟩
  simp only [changed_append, ← List.append_assoc]
  exact List.perm_append_comm.append_right _

end Summary.Perm

/-! ## Batches that do not fail -/

/-- A target is handled without a failure: what this makes of the tree, and
what it counts. -/
inductive Handled (rules : Rules) (mode : Mode)
    (tree : FileTree) (path : String) :
    FileTree → Summary → Prop where
  | skipped (hfile : tree.isFile path = false) :
      Handled rules mode tree path tree .ofSkipped
  | file {text migrated : String} {after : FileTree}
      (hfile : tree.isFile path = true) (hread : tree.readText path = .ok text)
        (hrun : (rules.run text).2 = .ok migrated)
      (hstore : store mode tree path migrated = .ok after) :
      Handled rules mode tree path after (.ofFile path (migrated != text))

/-- Targets are handled one after the other without a failure. -/
inductive Completed (rules : Rules) (mode : Mode) :
    FileTree → List String → FileTree → Summary → Prop where
  | nil {tree : FileTree} : Completed rules mode tree [] tree {}
  | cons {tree between after : FileTree} {path : String} {paths : List String}
      {s t : Summary} (h : Handled rules mode tree path between s)
        (h' : Completed rules mode between paths after t) :
      Completed rules mode tree (path :: paths) after (s ++ t)

variable {rules : Rules} {mode : Mode}
  {p q : Progress} {tree between after : FileTree}
  {path path' : String} {paths paths' : List String} {s t done : Summary}

theorem Visited.handled (h : Visited rules mode p path (q, none)) :
    ∃ s, Handled rules mode p.tree path q.tree s ∧
    q.summary = p.summary ++ s := by
  cases h with
  | skipped hfile => exact ⟨_, .skipped hfile, rfl⟩
  | done hfile hread hrun hstore =>
      exact ⟨_, .file hfile hread (by rw [hrun]) hstore, rfl⟩

theorem Handled.visited (h : Handled rules mode p.tree path after s) :
    ∃ q, Visited rules mode p path (q, none) ∧ q.tree = after ∧
    q.summary = p.summary ++ s := by
  cases h with
  | skipped hfile => exact ⟨_, .skipped hfile, rfl, rfl⟩
  | @file text migrated after hfile hread hrun hstore =>
      have hpair : rules.run text = ((rules.run text).1, .ok migrated) := by
        rw [← hrun]
      exact ⟨_, .done hfile hread hpair hstore, rfl, rfl⟩

theorem completed_of_visitAll (h : visitAll rules mode p paths = (q, none)) :
    ∃ s, Completed rules mode p.tree paths q.tree s ∧
    q.summary = p.summary ++ s := by
  induction paths generalizing p with
  | nil =>
      cases h
      exact ⟨{}, .nil, (Summary.append_empty _).symm⟩
  | cons path paths ih =>
      obtain ⟨m, hvisited, h⟩ := visitAll_cons_inv h
      obtain ⟨s, hhandled, hfirst⟩ := hvisited.handled
      obtain ⟨t, hcompleted, hrest⟩ := ih h
      exact ⟨s ++ t,
        .cons hhandled hcompleted, by rw [hrest, hfirst, Summary.append_assoc]⟩

theorem Completed.visitAll (h : Completed rules mode tree paths after s)
    (hp : p.tree = tree) :
    ∃ q, visitAll rules mode p paths = (q, none) ∧ q.tree = after ∧
    q.summary = p.summary ++ s := by
  induction h generalizing p with
  | nil => exact ⟨p, rfl, hp, (Summary.append_empty _).symm⟩
  | cons h _ ih =>
      subst hp
      obtain ⟨m, hvisited, hm, hfirst⟩ := h.visited
      obtain ⟨q, hrest, hq, hlast⟩ := ih hm
      refine ⟨q, ?_, hq, by rw [hlast, hfirst, Summary.append_assoc]⟩
      rw [visitAll_cons_of_done hvisited.visit_eq, hrest]

/-- A batch that does not fail is completed, with what it leaves and what it
counts. -/
theorem completed_iff : Completed rules mode tree paths after done ↔
    (run rules mode tree paths).result = .ok done ∧
    (run rules mode tree paths).tree = after := by
  constructor
  · intro h
    obtain ⟨q, hq, htree, hsummary⟩ := h.visitAll (p := { tree }) rfl
    rw [run_of_done hq, hsummary, htree]
    exact ⟨congrArg Except.ok (Summary.empty_append done), rfl⟩
  · intro ⟨hdone, htree⟩
    subst htree
    obtain ⟨p, hp, rfl⟩ := run_eq_ok_iff.mp hdone
    obtain ⟨s, hcompleted, hsummary⟩ := completed_of_visitAll hp
    rw [run_of_done hp, hsummary,
      show ({ tree } : Progress).summary ++ s = s from
      Summary.empty_append s]
    exact hcompleted

theorem Completed.sublist (h : Completed rules mode tree paths after s) :
    s.changed.Sublist paths := by
  induction h with
  | nil => exact .slnil
  | cons h _ ih =>
      rw [Summary.changed_append]
      cases h with
      | skipped => exact ih.cons _
      | @file text migrated =>
          rw [Summary.ofFile]
          split
          · exact ih.cons_cons _
          · exact ih.cons _

/-! ## Another order -/

theorem Handled.alike (h : Handled rules mode tree path after s) :
    tree.Alike after := by
  obtain ⟨q, hvisited, rfl, -⟩ := Handled.visited (p := { tree }) h
  exact hvisited.alike

theorem Handled.file?_eq (h : Handled rules mode tree path after s)
    (hd : Distinct tree [path, path']) :
    after.file? path' = tree.file? path' := by
  obtain ⟨q, hvisited, rfl, -⟩ := Handled.visited (p := { tree }) h
  exact hvisited.file?_eq (fun _ => hd) path' (List.mem_singleton_self _)

theorem Distinct.sublist (hd : Distinct tree paths) (h : paths'.Sublist paths) :
    Distinct tree paths' :=
  List.Nodup.sublist (h.filterMap _) hd

theorem Distinct.perm (hd : Distinct tree paths) (h : paths.Perm paths') :
    Distinct tree paths' :=
  (h.filterMap _).nodup_iff.mp hd

theorem Distinct.locate_ne (hd : Distinct tree [path, path'])
    (hfile : tree.isFile path = true) :
    tree.locate path ≠ tree.locate path' := by
  intro heq
  obtain ⟨names, hnames, -⟩ := FileTree.fileNames?_of_isFile hfile
  refine hd.untouched names hnames
    (List.mem_filterMap.mpr ⟨path', List.mem_singleton_self _, ?_⟩)
  rw [← FileTree.fileNames?_congr heq, hnames]

/-- Targets that lead to different files can be handled in the other order. -/
theorem Handled.swap {u v : FileTree} (h : Handled rules mode tree path u s)
    (h' : Handled rules mode u path' v t) (hd : Distinct tree [path, path']) :
    ∃ u', Handled rules mode tree path' u' t ∧
    Handled rules mode u' path v s := by
  have halike := h.alike
  have hsame := h.file?_eq hd
  cases h with
  | skipped hfile => exact ⟨v, h', .skipped (by rw [h'.alike.isFile, hfile])⟩
  | file hfile hread hrun hstore =>
      cases h' with
      | skipped hfile' =>
          rw [halike.isFile] at hfile'
          exact ⟨tree, .skipped hfile', .file hfile hread hrun hstore⟩
      | file hfile' hread' hrun' hstore' =>
          rw [halike.isFile] at hfile'
          rw [FileTree.readText_congr hsame hfile'] at hread'
          rcases store_eq_ok_iff.mp hstore with ⟨rfl, rfl⟩ | ⟨rfl, hwrite⟩
          · cases hstore'
            exact ⟨_, .file hfile' hread' hrun' rfl, .file hfile hread hrun rfl⟩
          · have hne := hd.locate_ne hfile
            obtain ⟨u', hfirst, hsecond⟩ :=
              FileTree.writeText_comm hwrite (writeText_of_store hstore') hne
            have hbefore := FileTree.file?_of_writeText_ne hfirst hne
            refine ⟨u', .file hfile' hread' hrun'
              (store_eq_ok_iff.mpr (.inr ⟨rfl, hfirst⟩)),
              .file ?_ ?_ hrun (store_eq_ok_iff.mpr (.inr ⟨rfl, hsecond⟩))⟩
            · rw [(FileTree.alike_of_writeText hfirst).isFile, hfile]
            · rw [FileTree.readText_congr hbefore hfile, hread]

theorem Completed.perm (hperm : paths.Perm paths') (hd : Distinct tree paths)
    (h : Completed rules mode tree paths after s) :
    ∃ t, Completed rules mode tree paths' after t ∧ t.Perm s := by
  induction hperm generalizing tree s with
  | nil => exact ⟨s, h, .refl s⟩
  | cons path _ ih =>
      cases h with
      | cons h h' =>
          obtain ⟨t, hcompleted, hcounts⟩ :=
            ih ((distinct_congr h.alike).mpr hd.tail) h'
          exact ⟨_, .cons h hcompleted, hcounts.append_left _⟩
  | swap path path' paths =>
      cases h with
      | cons h h' =>
          cases h' with
          | cons h' hrest =>
              have hpair : [path', path].Sublist (path' :: path :: paths) :=
                ((List.nil_sublist paths).cons_cons path).cons_cons path'
              obtain ⟨u, hfirst, hsecond⟩ := h.swap h' (hd.sublist hpair)
              exact ⟨_, .cons hfirst (.cons hsecond hrest), .swap _ _ _⟩
  | trans hperm _ ih ih' =>
      obtain ⟨t, hcompleted, hcounts⟩ := ih hd h
      obtain ⟨u, hcompleted', hcounts'⟩ := ih' (hd.perm hperm) hcompleted
      exact ⟨u, hcompleted', hcounts'.trans hcounts⟩

/-- If no file is listed twice and a batch does not fail, a batch with the
targets in another order does not fail either. It leaves the same tree and
counts the same, and the changed files are the same, each time in the order of
the targets. -/
theorem run_perm (rules : Rules) (mode : Mode)
    (hperm : paths.Perm paths') (hd : Distinct tree paths)
    (h : (run rules mode tree paths).result = .ok done) :
    ∃ done', (run rules mode tree paths').result = .ok done' ∧
      (run rules mode tree paths').tree = (run rules mode tree paths).tree ∧
      done'.processed = done.processed ∧ done'.skipped = done.skipped ∧
      done'.changed.Perm done.changed ∧ done.changed.Sublist paths ∧
      done'.changed.Sublist paths' := by
  have hcompleted :
      Completed rules mode tree paths (run rules mode tree paths).tree done :=
    completed_iff.mpr ⟨h, rfl⟩
  obtain ⟨done', hcompleted', hcounts⟩ := hcompleted.perm hperm hd
  obtain ⟨h', htree⟩ := completed_iff.mp hcompleted'
  exact ⟨done', h', htree, hcounts.processed, hcounts.skipped, hcounts.changed,
    hcompleted.sublist, hcompleted'.sublist⟩

/-- A batch that renames a call, with its targets in two orders. -/
theorem run_perm_rename :
    let paths := ["old/a", "old", "./b"]
    let paths' := ["./b", "old/a", "old"]
    let done : Summary := { processed := 2, changed := ["old/a"], skipped := 1 }
    ∃ r, Rule.compile "rename" (Shape.code "old()").pattern .plain
        (Template.produce [.text "new()"]) = .ok r ∧
      paths.Perm paths' ∧ Distinct drafts paths ∧
      (run [r] .write drafts paths).result = .ok done ∧
      (run [r] .write drafts paths).tree ≠ drafts ∧
      ∃ done', (run [r] .write drafts paths').result = .ok done' ∧
        (run [r] .write drafts paths').tree =
          (run [r] .write drafts paths).tree ∧
        done'.changed.Perm done.changed := by
  intro paths paths' done
  have hperm : paths.Perm paths' := by decide
  have hd : Distinct drafts paths := by
    show List.Nodup [["old", "a"], ["b"]]
    decide
  obtain ⟨r, hr, hrun, hrun'⟩ := rename_runs
  let after := drafts.replace ["old", "a"] (.file { contents := .text "new()" })
  have hcompleted : Completed [r] .write drafts paths after done :=
    .cons (.file rfl rfl hrun rfl)
      (.cons (.skipped rfl) (.cons (.file rfl rfl hrun' rfl) .nil))
  obtain ⟨hdone, htree⟩ := completed_iff.mp hcompleted
  obtain ⟨done', h', htree', -, -, hchanged, -⟩ :=
    run_perm [r] .write hperm hd hdone
  refine ⟨r, hr, hperm, hd, hdone, ?_, done', h', htree', hchanged⟩
  rw [htree]
  decide

end Batch

end Codemod
