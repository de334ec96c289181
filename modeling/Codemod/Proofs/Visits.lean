import Codemod.Batch
import Codemod.Proofs.Overwrite

/-!
# The visits of a batch

What a visit of one target can come to is said once, by `Visited`: the target
is passed over, it stops the batch, or it is done. Everything that holds of a
whole batch is derived from that, by induction on the targets: what the tree
looks like afterwards, what was said, and where a batch that failed stopped.
-/

namespace Codemod.Batch

namespace Summary

/-- The counts of the front and of the back of a batch, put together. -/
instance : Append Summary :=
  ⟨fun s t =>
    ⟨s.processed + t.processed, s.changed ++ t.changed, s.skipped + t.skipped⟩⟩

/-- The counts of a target that is no regular file. -/
def ofSkipped : Summary := { skipped := 1 }

/-- The counts of a file that went through the rules. -/
def ofFile (path : String) (changed : Bool) : Summary :=
  { processed := 1, changed := if changed then [path] else [] }

theorem changed_append (s t : Summary) :
    (s ++ t).changed = s.changed ++ t.changed := rfl

theorem append_empty (s : Summary) : s ++ {} = s := by
  show Summary.mk (s.processed + 0) (s.changed ++ []) (s.skipped + 0) = s
  rw [List.append_nil]
  rfl

theorem empty_append (s : Summary) : {} ++ s = s := by
  show Summary.mk (0 + s.processed) ([] ++ s.changed) (0 + s.skipped) = s
  rw [Nat.zero_add, Nat.zero_add]
  rfl

theorem append_assoc (s t u : Summary) : s ++ t ++ u = s ++ (t ++ u) := by
  show Summary.mk _ _ _ = Summary.mk _ _ _
  rw [Summary.mk.injEq]
  exact ⟨Nat.add_assoc _ _ _, List.append_assoc _ _ _, Nat.add_assoc _ _ _⟩

end Summary

/-- The lines said about files that were done: in write mode two about each, in
check mode one about each that would change. -/
def fileLines (mode : Mode) (files changed : List String) : List String :=
  match mode with
  | .write => files.flatMap fun path => [s!"Fixing {path}...", s!"Fixed {path}"]
  | .check => changed.map fun path => s!"Would fix {path}"

/-- The file at a path raises an error: it cannot be read as a text, a rule
fails on its text, or the result is to be written and cannot be. The events are
those told before. -/
inductive Raises (rules : Rules) (mode : Mode)
    (tree : FileTree) (path : String) :
    List Event → Error → Prop where
  | read {why : FileFault} (hread : tree.readText path = .error why) :
      Raises rules mode tree path [] (.readFailed path why)
  | rule {text : String} {told : List Event} {e : Error}
      (hread : tree.readText path = .ok text)
      (hrun : rules.run text = (told, .error e)) :
      Raises rules mode tree path told e
  | write {text migrated : String} {told : List Event} {why : FileFault}
      (hmode : mode = .write) (hread : tree.readText path = .ok text)
        (hrun : rules.run text = (told, .ok migrated))
      (hwrite : tree.writeText path migrated = .error why) :
      Raises rules mode tree path (told ++ [.migrated path (migrated != text)])
        (.writeFailed path why)

/-- What a visit of a target can come to. -/
inductive Visited (rules : Rules) (mode : Mode) (p : Progress) (path : String) :
    Progress × Option Error → Prop where
  | skipped (hfile : p.tree.isFile path = false) :
      Visited rules mode p path (⟨p.tree, p.lines,
        p.events ++ [.missingSkipped path], p.summary ++ .ofSkipped⟩, none)
  | stopped {told : List Event} {e : Error} (hfile : p.tree.isFile path = true)
      (hraises : Raises rules mode p.tree path told e) :
      Visited rules mode p path (⟨p.tree, p.lines ++ openingLine mode path,
        p.events ++ told, p.summary⟩, some e)
  | done {text migrated : String} {told : List Event} {tree : FileTree}
      (hfile : p.tree.isFile path = true)
        (hread : p.tree.readText path = .ok text)
      (hrun : rules.run text = (told, .ok migrated))
      (hstore : store mode p.tree path migrated = .ok tree) :
      Visited rules mode p path (⟨tree, p.lines ++ fileLines mode [path]
        (Summary.ofFile path (migrated != text)).changed,
          p.events ++ (told ++ [.migrated path (migrated != text)]),
          p.summary ++ .ofFile path (migrated != text)⟩, none)

@[simp] theorem Progress.say_tree (p : Progress) (lines : List String) :
    (p.say lines).tree = p.tree :=
  rfl

@[simp] theorem Progress.report_tree (p : Progress) (events : List Event) :
    (p.report events).tree = p.tree :=
  rfl

theorem Progress.count_summary (p : Progress) (path : String) (changed : Bool) :
    (p.count path changed).summary = p.summary ++ .ofFile path changed := by
  cases changed with
  | true => rfl
  | false =>
      show Summary.mk _ p.summary.changed _ =
        Summary.mk _ (p.summary.changed ++ []) _
      rw [List.append_nil]
      rfl

theorem Progress.skip_summary (p : Progress) (path : String) :
    (p.skip path).summary = p.summary ++ .ofSkipped := by
  show Summary.mk p.summary.processed p.summary.changed _ =
    Summary.mk _ (p.summary.changed ++ []) _
  rw [List.append_nil]
  rfl

theorem openingLine_append_closingLine (mode : Mode)
    (path : String) (changed : Bool) :
    openingLine mode path ++ closingLine mode path changed =
      fileLines mode [path] (Summary.ofFile path changed).changed := by
  cases mode <;> cases changed <;> rfl

theorem store_eq_ok_iff {mode : Mode}
    {tree tree' : FileTree} {path text : String} :
    store mode tree path text = .ok tree' ↔
      (mode = .check ∧ tree' = tree) ∨
        (mode = .write ∧ tree.writeText path text = .ok tree') := by
  cases mode with
  | check => simp [store, eq_comm]
  | write =>
      rw [store]
      cases tree.writeText path text with
      | ok after =>
          show Except.ok after = .ok tree' ↔ _
          simp
      | error why =>
          show Except.error (Error.writeFailed path why) = .ok tree' ↔ _
          simp

theorem writeText_of_store {tree tree' : FileTree} {path text : String}
    (h : store .write tree path text = .ok tree') :
    tree.writeText path text = .ok tree' := by
  rcases store_eq_ok_iff.mp h with ⟨hmode, -⟩ | ⟨-, hwrite⟩
  · cases hmode
  · exact hwrite

theorem store_eq_error {mode : Mode} {tree : FileTree} {path text : String}
    {e : Error} (h : store mode tree path text = .error e) :
    mode = .write ∧ ∃ why, tree.writeText path text = .error why ∧
    e = .writeFailed path why := by
  cases mode with
  | check => cases h
  | write =>
      rw [store] at h
      cases hwrite : tree.writeText path text with
      | ok tree' =>
          rw [hwrite] at h
          cases h
      | error why =>
          rw [hwrite] at h
          cases h
          exact ⟨rfl, why, rfl, rfl⟩

variable {rules : Rules} {mode : Mode} {p p' : Progress} {path : String}
  {paths front : List String}

theorem visit_of_skipped (hfile : p.tree.isFile path = false) :
    visit rules mode p path = (⟨p.tree, p.lines,
      p.events ++ [.missingSkipped path], p.summary ++ .ofSkipped⟩, none) := by
  rw [visit, if_neg (by rw [hfile]; exact Bool.false_ne_true),
    ← Progress.skip_summary p path]
  rfl

/-- A file that raises an error stops the batch. -/
theorem visit_of_raises {told : List Event} {e : Error}
    (hfile : p.tree.isFile path = true)
    (h : Raises rules mode p.tree path told e) :
    visit rules mode p path = (⟨p.tree, p.lines ++ openingLine mode path,
      p.events ++ told, p.summary⟩, some e) := by
  rw [visit, if_pos hfile, process, Progress.say_tree]
  cases h with
  | read hread =>
      rw [hread, List.append_nil]
      rfl
  | rule hread hrun =>
      simp only [hread, hrun]
      rfl
  | write hmode hread hrun hwrite =>
      subst hmode
      simp only [hread, hrun, Progress.report_tree, Progress.say_tree,
        store, hwrite]
      rw [← List.append_assoc]
      rfl

theorem visit_of_file {text migrated : String} {told : List Event}
    {tree : FileTree} (hfile : p.tree.isFile path = true)
    (hread : p.tree.readText path = .ok text)
    (hrun : rules.run text = (told, .ok migrated))
    (hstore : store mode p.tree path migrated = .ok tree) :
    visit rules mode p path = (⟨tree, p.lines ++ fileLines mode [path]
      (Summary.ofFile path (migrated != text)).changed,
        p.events ++ (told ++ [.migrated path (migrated != text)]),
        p.summary ++ .ofFile path (migrated != text)⟩, none) := by
  rw [visit, if_pos hfile, process, Progress.say_tree]
  simp only [hread, hrun, Progress.report_tree, Progress.say_tree, hstore]
  rw [← openingLine_append_closingLine, ← List.append_assoc,
    ← List.append_assoc, ← Progress.count_summary]
  rfl

theorem Visited.visit_eq {r : Progress × Option Error}
    (h : Visited rules mode p path r) :
    visit rules mode p path = r := by
  cases h with
  | skipped hfile => exact visit_of_skipped hfile
  | stopped hfile hraises => exact visit_of_raises hfile hraises
  | done hfile hread hrun hstore => exact visit_of_file hfile hread hrun hstore

theorem visited (rules : Rules) (mode : Mode) (p : Progress) (path : String) :
    Visited rules mode p path (visit rules mode p path) := by
  have hof : ∀ {r}, Visited rules mode p path r →
      Visited rules mode p path (visit rules mode p path) := by
    intro r h
    rw [h.visit_eq]
    exact h
  cases hfile : p.tree.isFile path with
  | false => exact hof (.skipped hfile)
  | true =>
      cases hread : p.tree.readText path with
      | error why => exact hof (.stopped hfile (.read hread))
      | ok text =>
          rcases hrun : rules.run text with ⟨told, result⟩
          cases result with
          | error e => exact hof (.stopped hfile (.rule hread hrun))
          | ok migrated =>
              cases hstore : store mode p.tree path migrated with
              | error e =>
                  obtain ⟨hmode, why, hwrite, rfl⟩ := store_eq_error hstore
                  exact hof (.stopped hfile (.write hmode hread hrun hwrite))
              | ok tree => exact hof (.done hfile hread hrun hstore)

/-! ## Whole batches -/

theorem visitAll_cons_of_done (h : visit rules mode p path = (p', none))
    (paths : List String) :
    visitAll rules mode p (path :: paths) = visitAll rules mode p' paths := by
  rw [visitAll, h]

theorem visitAll_cons_of_stopped {e : Error}
    (h : visit rules mode p path = (p', some e)) (paths : List String) :
    visitAll rules mode p (path :: paths) = (p', some e) := by
  rw [visitAll, h]

theorem visitAll_cons_inv
    (h : visitAll rules mode p (path :: paths) = (p', none)) :
    ∃ q, Visited rules mode p path (q, none) ∧
    visitAll rules mode q paths = (p', none) := by
  have hvisited := visited rules mode p path
  rcases hvisit : visit rules mode p path with ⟨q, _ | e⟩
  · rw [hvisit] at hvisited
    rw [visitAll_cons_of_done hvisit] at h
    exact ⟨q, hvisited, h⟩
  · rw [visitAll_cons_of_stopped hvisit] at h
    cases h

/-- Visits of two lists of targets, one after the other. -/
theorem visitAll_append (h : visitAll rules mode p front = (p', none))
    (back : List String) :
    visitAll rules mode p (front ++ back) = visitAll rules mode p' back := by
  induction front generalizing p with
  | nil =>
      cases h
      rfl
  | cons path front ih =>
      obtain ⟨q, hvisited, hrest⟩ := visitAll_cons_inv h
      rw [List.cons_append, visitAll_cons_of_done hvisited.visit_eq, ih hrest]

/-- What the visit of every target keeps, all visits keep. -/
theorem visitAll_keeps {I : Progress → Prop}
    (hstep : ∀ p, ∀ path ∈ paths, ∀ r, I p →
      Visited rules mode p path r → I r.1) (hp : I p) :
    I (visitAll rules mode p paths).1 := by
  induction paths generalizing p with
  | nil => exact hp
  | cons path paths ih =>
      have hq :=
        hstep p path List.mem_cons_self _ hp (visited rules mode p path)
      rcases hvisit : visit rules mode p path with ⟨q, _ | e⟩
      · rw [hvisit] at hq
        rw [visitAll_cons_of_done hvisit]
        exact ih
          (fun p path' hmem => hstep p path' (List.mem_cons_of_mem _ hmem)) hq
      · rw [hvisit] at hq
        rw [visitAll_cons_of_stopped hvisit]
        exact hq

theorem Visited.alike {r : Progress × Option Error}
    (h : Visited rules mode p path r) :
    p.tree.Alike r.1.tree := by
  cases h with
  | skipped | stopped => exact .refl _
  | done _ _ _ hstore =>
      rcases store_eq_ok_iff.mp hstore with ⟨-, rfl⟩ | ⟨-, hwrite⟩
      · exact .refl _
      · exact FileTree.alike_of_writeText hwrite

/-- A batch keeps the directories and the files as such. -/
theorem visitAll_alike (rules : Rules) (mode : Mode)
    (p : Progress) (paths : List String) :
    p.tree.Alike (visitAll rules mode p paths).1.tree :=
  visitAll_keeps (I := fun q => p.tree.Alike q.tree)
    (fun _ _ _ _ hq h => hq.trans h.alike) (.refl _)

theorem Visited.check_tree {r : Progress × Option Error}
    (h : Visited rules .check p path r) :
    r.1.tree = p.tree := by
  cases h with
  | skipped | stopped => rfl
  | done _ _ _ hstore =>
      rcases store_eq_ok_iff.mp hstore with ⟨-, rfl⟩ | ⟨hmode, -⟩
      · rfl
      · cases hmode

/-- A batch in check mode writes nothing. -/
theorem visitAll_check_tree (rules : Rules)
    (p : Progress) (paths : List String) :
    (visitAll rules .check p paths).1.tree = p.tree :=
  visitAll_keeps (I := fun q => q.tree = p.tree)
    (fun _ _ _ _ hq h => h.check_tree.trans hq) rfl

/-- What was said in a batch that did not fail, and what was counted, go
together. -/
theorem visitAll_lines (h : visitAll rules mode p paths = (p', none)) :
    ∃ done : Summary, p'.summary = p.summary ++ done ∧
      p'.lines = p.lines ++
        fileLines mode (paths.filter p.tree.isFile) done.changed := by
  have hlines : ∀ (fs gs : List String) (cs ds : List String),
      fileLines mode (fs ++ gs) (cs ++ ds) =
      fileLines mode fs cs ++ fileLines mode gs ds := by
    intro fs gs cs ds
    cases mode with
    | write => exact List.flatMap_append
    | check => exact List.map_append
  induction paths generalizing p with
  | nil =>
      cases h
      refine ⟨{}, (Summary.append_empty _).symm, ?_⟩
      cases mode <;> exact (List.append_nil _).symm
  | cons path paths ih =>
      obtain ⟨q, hvisited, h⟩ := visitAll_cons_inv h
      have halike := hvisited.alike
      cases hvisited with
      | skipped hfile =>
          obtain ⟨done, hsummary, hsaid⟩ := ih h
          refine ⟨.ofSkipped ++
            done, by rw [hsummary, Summary.append_assoc], ?_⟩
          rw [hsaid, List.filter_cons,
            if_neg (by rw [hfile]; exact Bool.false_ne_true)]
          rfl
      | @done text migrated told tree hfile =>
          obtain ⟨done, hsummary, hsaid⟩ := ih h
          refine ⟨.ofFile path (migrated != text) ++
            done, by rw [hsummary, Summary.append_assoc], ?_⟩
          have hsame : paths.filter tree.isFile =
              paths.filter p.tree.isFile := by
            rw [show tree.isFile = p.tree.isFile from funext halike.isFile]
          rw [hsaid, hsame, List.filter_cons, if_pos hfile, List.append_assoc,
            Summary.changed_append, ← hlines]
          rfl

/-- A batch that failed has visited some targets without a failure, and then
failed in one visit. -/
theorem visitAll_stopped {e : Error}
    (h : visitAll rules mode p paths = (p', some e)) :
    ∃ front path back q, paths = front ++ path :: back ∧
    visitAll rules mode p front = (q, none) ∧
      visit rules mode q path = (p', some e) := by
  induction paths generalizing p with
  | nil => cases h
  | cons path paths ih =>
      rcases hvisit : visit rules mode p path with ⟨q, _ | e'⟩
      · rw [visitAll_cons_of_done hvisit] at h
        obtain ⟨front, path', back, q', rfl, hfront, hstop⟩ := ih h
        refine ⟨path :: front, path', back, q', rfl, ?_, hstop⟩
        rw [visitAll_cons_of_done hvisit, hfront]
      · rw [visitAll_cons_of_stopped hvisit] at h
        exact ⟨[], path, paths, p, rfl, rfl, hvisit.trans h⟩

/-! ## Reports -/

variable {tree : FileTree}

theorem run_of_done (h : visitAll rules mode { tree } paths = (p, none)) :
    run rules mode tree paths =
      { tree := p.tree, lines := p.lines ++ [lastLine mode p.summary],
        events := p.events, result := .ok p.summary } := by
  rw [run, h]

theorem run_of_stopped {e : Error}
    (h : visitAll rules mode { tree } paths = (p, some e)) :
    run rules mode tree paths =
      { tree := p.tree, lines := p.lines, events := p.events,
        result := .error e } := by
  rw [run, h]

theorem run_tree (rules : Rules) (mode : Mode)
    (tree : FileTree) (paths : List String) :
    (run rules mode tree paths).tree =
      (visitAll rules mode { tree } paths).1.tree := by
  rcases hvisit : visitAll rules mode { tree } paths with ⟨p, _ | e⟩
  · rw [run_of_done hvisit]
  · rw [run_of_stopped hvisit]

theorem run_events (rules : Rules) (mode : Mode)
    (tree : FileTree) (paths : List String) :
    (run rules mode tree paths).events =
      (visitAll rules mode { tree } paths).1.events := by
  rcases hvisit : visitAll rules mode { tree } paths with ⟨p, _ | e⟩
  · rw [run_of_done hvisit]
  · rw [run_of_stopped hvisit]

theorem run_eq_ok_iff {done : Summary} :
    (run rules mode tree paths).result = .ok done ↔
    ∃ p, visitAll rules mode { tree } paths = (p, none) ∧ p.summary = done := by
  rcases hvisit : visitAll rules mode { tree } paths with ⟨p, _ | e⟩
  · rw [run_of_done hvisit]
    simp
  · rw [run_of_stopped hvisit]
    simp

theorem run_eq_error_iff {e : Error} :
    (run rules mode tree paths).result = .error e ↔
    ∃ p, visitAll rules mode { tree } paths = (p, some e) := by
  rcases hvisit : visitAll rules mode { tree } paths with ⟨p, _ | e'⟩
  · rw [run_of_done hvisit]
    simp
  · rw [run_of_stopped hvisit]
    simp

/-- A batch fails with an error if and only if one of the files raises it,
after all targets before that one have gone well. It then leaves what the
targets before the file leave: their files as they are after them, what was
said about them, and the events; and of this file only the opening line and the
events that it told before it failed. -/
theorem run_fails_iff (rules : Rules) (mode : Mode) (tree : FileTree)
    (paths : List String) (e : Error) :
    (run rules mode tree paths).result = .error e ↔
      ∃ k path done told, paths[k]? = some path ∧
        (run rules mode tree (paths.take k)).result = .ok done ∧
        tree.isFile path = true ∧
        Raises rules mode (run rules mode tree (paths.take k)).tree path told
          e ∧
        (run rules mode tree paths).tree =
          (run rules mode tree (paths.take k)).tree ∧
        (run rules mode tree paths).events =
          (run rules mode tree (paths.take k)).events ++ told ∧
        (run rules mode tree paths).lines =
          fileLines mode ((paths.take k).filter tree.isFile) done.changed ++
            openingLine mode path ∧
        (run rules mode tree (paths.take k)).lines =
          fileLines mode ((paths.take k).filter tree.isFile) done.changed ++
            [lastLine mode done] := by
  have hstart : ∀ done : Summary, ({ tree } : Progress).summary ++ done =
      done := Summary.empty_append
  constructor
  · intro h
    obtain ⟨p, hp⟩ := run_eq_error_iff.mp h
    obtain ⟨front, path, back, q, rfl, hfront, hvisit⟩ := visitAll_stopped hp
    obtain ⟨done, hsummary, hlines⟩ := visitAll_lines hfront
    have hfile : q.tree.isFile path = tree.isFile path := by
      have halike := visitAll_alike rules mode { tree } front
      rw [hfront] at halike
      exact halike.isFile path
    have hvisited := visited rules mode q path
    rw [hvisit] at hvisited
    cases hvisited with
    | @stopped told e hisFile hraises =>
        rw [hstart] at hsummary
        refine ⟨front.length, path, done, told, ?_, ?_⟩
        · rw [List.getElem?_append_right (Nat.le_refl _), Nat.sub_self]
          rfl
        · rw [List.take_left, run_of_done hfront, run_of_stopped hp, ← hfile,
            hsummary, hlines]
          exact ⟨rfl, hisFile, hraises, rfl, rfl, rfl, rfl⟩
  · rintro ⟨k, path, done, told, hpath, hfront, hfile, hraises, -⟩
    obtain ⟨q, hq, -⟩ := run_eq_ok_iff.mp hfront
    rw [run_of_done hq] at hraises
    have halike := visitAll_alike rules mode { tree } (paths.take k)
    rw [hq] at halike
    rw [← halike.isFile] at hfile
    obtain ⟨hk, rfl⟩ := List.getElem?_eq_some_iff.mp hpath
    have hcut : paths = paths.take k ++ paths[k] :: paths.drop (k + 1) := by
      rw [← List.drop_eq_getElem_cons hk, List.take_append_drop]
    have hrun := visitAll_append hq (paths[k] :: paths.drop (k + 1))
    rw [← hcut, visitAll, visit_of_raises hfile hraises] at hrun
    exact run_eq_error_iff.mpr ⟨_, hrun⟩

/-- A file that cannot be read ends the batch. The file before it is done, and
what stands behind it is not visited. -/
example :
    let tree : FileTree := {
      entries := [(["a"], .file { contents := .text "x" }),
        (["b"], .file { contents := .text "y", readable := false })] }
    let report := run [] .write tree ["a", "b", "a"]
    report.tree = tree ∧
      report.lines = ["Fixing a...", "Fixed a", "Fixing b..."] ∧
      report.result = .error (.readFailed "b" .accessDenied) :=
  ⟨rfl, rfl, rfl⟩

end Codemod.Batch
