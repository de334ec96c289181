import Codemod.Proofs.Enumerate
import Codemod.Proofs.MigrationRules
import Codemod.Proofs.Visits

/-!
# Check mode

A batch in check mode leaves the tree as it is and says what a batch in write
mode would do. The two are compared by way of a third thing, the `forecast`:
what the batch would count if nothing were written on the way. In check mode
nothing is written, so the batch counts what was forecast. In write mode every
file that is done has another text afterwards, but that is no matter as long as
no file is listed twice, since a target only looks at the file that it leads
to.
-/

namespace Codemod

namespace FileTree

/-- The names of the file at a path, if there is a file. -/
def fileNames? (t : FileTree) (path : String) : Option (List String) :=
  if t.isFile path then (t.locate path).toOption else none

variable {t t' : FileTree} {path q : String}

theorem Alike.fileNames? (h : t.Alike t') (path : String) :
    t'.fileNames? path = t.fileNames? path := by
  rw [FileTree.fileNames?, FileTree.fileNames?, h.isFile, h.locate]

theorem fileNames?_of_isFile (h : t.isFile path = true) :
    ∃ names, t.fileNames? path = some names ∧ t.locate path = .ok names := by
  obtain ⟨f, hf⟩ := isFile_iff.mp h
  obtain ⟨names, hnames, -⟩ := file?_eq_some_iff.mp hf
  refine ⟨names, ?_, hnames⟩
  rw [fileNames?, if_pos h, hnames]
  rfl

theorem file?_congr (h : t.locate q = t.locate path) :
    t.file? q = t.file? path := by
  rw [file?, file?, h]

/-- Two paths that lead to the same place lead to the same file or to none. -/
theorem fileNames?_congr (h : t.locate q = t.locate path) :
    t.fileNames? q = t.fileNames? path := by
  rw [fileNames?, fileNames?, isFile, isFile, file?_congr h, h]

theorem bytes?_congr (h : t'.file? q = t.file? q) :
    t'.bytes? q = t.bytes? q := by
  rw [bytes?, bytes?, h]

end FileTree

namespace Batch

variable {rules : Rules} {mode : Mode} {p p' : Progress} {tree : FileTree}
  {path : String} {paths : List String}

/-! ## The forecast -/

/-- What a target adds to the counts of a batch, in the tree as it is. -/
def preview (rules : Rules) (tree : FileTree) (path : String) :
    Except Error Summary :=
  if tree.isFile path then
    match tree.readText path with
    | .error why => .error (.readFailed path why)
    | .ok text =>
        (rules.run text).2.map fun migrated => .ofFile path (migrated != text)
  else .ok .ofSkipped

/-- The counts of a batch that always finds the tree as it is. -/
def forecast (rules : Rules) (tree : FileTree) :
    List String → Except Error Summary
  | [] => .ok {}
  | path :: paths => do
    let first ← preview rules tree path
    let rest ← forecast rules tree paths
    return first ++ rest

theorem forecast_cons_of_ok {first : Summary}
    (h : preview rules tree path = .ok first) :
    forecast rules tree (path :: paths) =
      (forecast rules tree paths).map (first ++ ·) := by
  rw [forecast, h]
  cases forecast rules tree paths <;> rfl

theorem forecast_cons_of_error {e : Error}
    (h : preview rules tree path = .error e) :
    forecast rules tree (path :: paths) = .error e := by
  rw [forecast, h]
  rfl

theorem preview_of_file? {f : File} {text migrated : String}
    (hf : tree.file? path = some f)
    (htext : f.read = .ok text) (hrun : (rules.run text).2 = .ok migrated) :
    preview rules tree path = .ok (.ofFile path (migrated != text)) := by
  rw [preview, if_pos (FileTree.isFile_iff.mpr ⟨f, hf⟩),
    FileTree.readText_of_file? hf, htext]
  simp only [hrun]
  rfl

/-- A target only looks at the file that it leads to. -/
theorem preview_congr {t t' : FileTree} (h : t'.file? path = t.file? path) :
    preview rules t' path = preview rules t path := by
  rw [preview, preview, FileTree.isFile, FileTree.isFile, h]
  cases hf : t.file? path with
  | none => rfl
  | some f =>
      rw [FileTree.readText_of_file? hf,
        FileTree.readText_of_file? (h.trans hf)]

theorem forecast_congr {t t' : FileTree}
    (h : ∀ path ∈ paths, t'.file? path = t.file? path) :
    forecast rules t' paths = forecast rules t paths := by
  induction paths with
  | nil => rfl
  | cons path paths ih =>
      rw [forecast, forecast, preview_congr (h path List.mem_cons_self),
        ih fun path' hmem => h path' (List.mem_cons_of_mem _ hmem)]

/-! ## Files that are listed once -/

/-- No file is listed twice, be it under two paths. -/
def Distinct (tree : FileTree) (paths : List String) : Prop :=
  (paths.filterMap tree.fileNames?).Nodup

/-- The path does not lead to one of the listed files. -/
def Untouched (tree : FileTree) (paths : List String) (path : String) : Prop :=
  ∀ names ∈ tree.fileNames? path, names ∉ paths.filterMap tree.fileNames?

theorem Distinct.tail (h : Distinct tree (path :: paths)) :
    Distinct tree paths := by
  rw [Distinct, List.filterMap_cons] at h
  split at h
  · exact h
  · exact (List.nodup_cons.mp h).2

theorem Distinct.untouched (h : Distinct tree (path :: paths)) :
    Untouched tree paths path := by
  intro names hnames
  rw [Distinct, List.filterMap_cons_some hnames] at h
  exact (List.nodup_cons.mp h).1

theorem Distinct.untouched_head (h : Distinct tree (path :: paths)) {q : String}
    (hq : q ∈ paths) :
    Untouched tree [path] q := by
  intro names hnames hmem
  obtain ⟨path', hpath', hnames'⟩ := List.mem_filterMap.mp hmem
  rw [List.mem_singleton.mp hpath'] at hnames'
  exact h.untouched names hnames' (List.mem_filterMap.mpr ⟨q, hq, hnames⟩)

theorem distinct_congr {t t' : FileTree} (h : t.Alike t') :
    Distinct t' paths ↔ Distinct t paths := by
  rw [Distinct, Distinct, show t'.fileNames? = t.fileNames?
    from funext h.fileNames?]

/-- A visit leaves alone what is found on paths that do not lead to the
target. -/
theorem Visited.untouched {r : Progress × Option Error}
    (h : Visited rules mode p path r)
    {q : String} (hq : Untouched p.tree [path] q) :
    r.1.tree.file? q = p.tree.file? q := by
  have halike := h.alike
  cases h with
  | skipped | stopped => rfl
  | @done text migrated told tree hfile _ _ hstore =>
      rcases store_eq_ok_iff.mp hstore with ⟨-, rfl⟩ | ⟨-, hwrite⟩
      · rfl
      · cases hisFile : p.tree.isFile q with
        | false =>
            have hnone : ∀ {t : FileTree}, t.isFile q = false →
                t.file? q = none := by
              intro t ht
              rw [FileTree.isFile, Option.isSome_eq_false_iff,
                Option.isNone_iff_eq_none] at ht
              exact ht
            rw [hnone hisFile, hnone ((halike.isFile q).trans hisFile)]
        | true =>
            refine FileTree.file?_of_writeText_ne hwrite fun hlocate => ?_
            obtain ⟨names, hnames, -⟩ := FileTree.fileNames?_of_isFile hisFile
            refine hq names hnames
              (List.mem_filterMap.mpr ⟨path, List.mem_singleton_self _, ?_⟩)
            rw [← FileTree.fileNames?_congr hlocate, hnames]

/-- A visit leaves alone what the other targets look at: in check mode nothing
is written, and in write mode no file may be listed twice. -/
theorem Visited.file?_eq {r : Progress × Option Error}
    (h : Visited rules mode p path r)
    (hd : mode = .write → Distinct p.tree (path :: paths)) :
    ∀ q ∈ paths, r.1.tree.file? q = p.tree.file? q := by
  intro q hq
  cases mode with
  | check => rw [h.check_tree]
  | write => exact h.untouched ((hd rfl).untouched_head hq)

/-- A batch leaves alone what is found on paths that lead to none of the
targets. -/
theorem visitAll_untouched (rules : Rules) (mode : Mode) {q : String}
    (hq : Untouched p.tree paths q) :
    (visitAll rules mode p paths).1.tree.file? q = p.tree.file? q := by
  refine (visitAll_keeps
    (I := fun s => p.tree.Alike s.tree ∧ s.tree.file? q = p.tree.file? q)
    (fun s path hmem r hs h => ⟨hs.1.trans h.alike, ?_⟩) ⟨.refl _, rfl⟩).2
  rw [h.untouched, hs.2]
  intro names hnames hmem'
  rw [hs.1.fileNames?] at hnames
  refine hq names hnames ?_
  obtain ⟨path', hpath', hnames'⟩ := List.mem_filterMap.mp hmem'
  rw [List.mem_singleton.mp hpath', hs.1.fileNames?] at hnames'
  exact List.mem_filterMap.mpr ⟨path, hmem, hnames'⟩

/-! ## What a batch counts -/

/-- The error that has ended a batch, or what it has counted. -/
def outcome : Progress × Option Error → Except Error Summary
  | (p, none) => .ok p.summary
  | (_, some e) => .error e

theorem run_result (rules : Rules) (mode : Mode)
    (tree : FileTree) (paths : List String) :
    (run rules mode tree paths).result =
      outcome (visitAll rules mode { tree } paths) := by
  rcases hvisit : visitAll rules mode { tree } paths with ⟨p, _ | e⟩
  · rw [run_of_done hvisit]
    rfl
  · rw [run_of_stopped hvisit]
    rfl

/-- The text that the rules make of the file at a path. -/
def Yields (rules : Rules) (tree : FileTree) (path migrated : String) : Prop :=
  tree.isFile path = true ∧
    ∃ text, tree.readText path = .ok text ∧ (rules.run text).2 = .ok migrated

/-- A visit counts what its preview says, unless there is a text to write that
cannot be written. -/
theorem Visited.outcome_eq {r : Progress × Option Error}
    (h : Visited rules mode p path r) :
    (mode = .write ∧ ∃ migrated why, Yields rules p.tree path migrated ∧
        p.tree.writeText path migrated = .error why) ∨
      outcome r = (preview rules p.tree path).map (p.summary ++ ·) := by
  cases h with
  | skipped hfile =>
      right
      rw [preview, if_neg (by rw [hfile]; exact Bool.false_ne_true)]
      rfl
  | done hfile hread hrun =>
      right
      rw [preview, if_pos hfile]
      simp only [hread, hrun]
      rfl
  | stopped hfile hraises =>
      rw [preview, if_pos hfile]
      cases hraises with
      | read hread =>
          right
          simp only [hread]
          rfl
      | rule hread hrun =>
          right
          simp only [hread, hrun]
          rfl
      | write hmode hread hrun hwrite =>
          left
          exact ⟨hmode, _, _, ⟨hfile, _, hread, by rw [hrun]⟩, hwrite⟩

/-- A batch counts what was forecast, unless it comes to a text that cannot be
written. A visit does not touch the files of later targets, so what was
forecast for them stays right. -/
theorem visitAll_outcome (rules : Rules)
    (hd : mode = .write → Distinct p.tree paths) :
    (mode = .write ∧ ∃ front path back q migrated why,
      paths = front ++ path :: back ∧
      visitAll rules mode p front = (q, none) ∧
      Yields rules q.tree path migrated ∧
      q.tree.writeText path migrated = .error why) ∨
      outcome (visitAll rules mode p paths) =
        (forecast rules p.tree paths).map (p.summary ++ ·) := by
  induction paths generalizing p with
  | nil =>
      right
      show Except.ok p.summary = .ok (p.summary ++ {})
      rw [Summary.append_empty]
  | cons path paths ih =>
      have hvisited := visited rules mode p path
      rcases hvisited.outcome_eq with ⟨hmode, migrated, why, hyields, hwrite⟩
        | hfirst
      · exact .inl ⟨hmode, [], path, paths, p, migrated, why, rfl, rfl,
          hyields, hwrite⟩
      · rcases hvisit : visit rules mode p path with ⟨q, _ | e⟩
        · rw [hvisit] at hvisited hfirst
          rw [visitAll_cons_of_done hvisit]
          have hsame := hvisited.file?_eq hd
          have hdq : mode = .write → Distinct q.tree paths :=
            fun hmode => (distinct_congr hvisited.alike).mpr (hd hmode).tail
          cases hpreview : preview rules p.tree path with
          | error e =>
              rw [hpreview] at hfirst
              cases hfirst
          | ok first =>
              rw [hpreview] at hfirst
              have hsummary : q.summary = p.summary ++ first :=
                Except.ok.inj hfirst
              rcases ih hdq with
                ⟨hmode, front, path', back, q', migrated, why, rfl, hfront,
                  hrest⟩ | hrest
              · left
                refine ⟨hmode, path :: front, path', back, q', migrated, why,
                  rfl, ?_, hrest⟩
                rw [visitAll_cons_of_done hvisit, hfront]
              · right
                rw [hrest, forecast_congr hsame, hsummary,
                  forecast_cons_of_ok hpreview]
                cases forecast rules p.tree paths with
                | error e => rfl
                | ok rest =>
                    exact congrArg Except.ok (Summary.append_assoc _ _ _)
        · right
          rw [hvisit] at hfirst
          rw [visitAll_cons_of_stopped hvisit]
          cases hpreview : preview rules p.tree path with
          | ok first =>
              rw [hpreview] at hfirst
              cases hfirst
          | error e' =>
              rw [hpreview] at hfirst
              rw [forecast_cons_of_error hpreview]
              exact hfirst

/-! ## Writing -/

/-- A batch in write mode comes to the file at a path, with the tree as
`before`, and has a text to write there. -/
def Writes (rules : Rules) (tree : FileTree) (paths : List String)
    (before : FileTree) (path migrated : String) : Prop :=
  ∃ front back done, paths = front ++ path :: back ∧
    (run rules .write tree front).result = .ok done ∧
    (run rules .write tree front).tree = before ∧
    Yields rules before path migrated

/-- A batch counts what was forecast if everything can be written that there is
to write. -/
theorem run_result_eq_forecast (rules : Rules) (mode : Mode)
    (hd : mode = .write → Distinct tree paths) (hwrites : mode = .write →
      ∀ before path migrated, Writes rules tree paths before path migrated →
      ∃ after, before.writeText path migrated = .ok after) :
    (run rules mode tree paths).result = forecast rules tree paths := by
  rw [run_result]
  rcases visitAll_outcome rules (p := { tree }) hd with
    ⟨rfl, front, path, back, q, migrated, why, rfl, hfront, hyields, hwrite⟩
      | houtcome
  · have hbefore :
        Writes rules tree (front ++ path :: back) q.tree path migrated := by
      refine ⟨front, back, q.summary, rfl, ?_, ?_, hyields⟩ <;>
        rw [run_of_done hfront]
    obtain ⟨after, hafter⟩ := hwrites rfl _ _ _ hbefore
    rw [hwrite] at hafter
    cases hafter
  · rw [houtcome]
    cases forecast rules tree paths with
    | error e => rfl
    | ok done => exact congrArg Except.ok (Summary.empty_append done)

/-- Where nothing is written, nothing has to be known. -/
theorem check_result_eq_forecast (rules : Rules)
    (tree : FileTree) (paths : List String) :
    (run rules .check tree paths).result = forecast rules tree paths :=
  run_result_eq_forecast rules .check nofun nofun

theorem Visited.writable {r : Progress × Option Error}
    (h : Visited rules mode p path r)
    {q : String} (hq : ∀ f, p.tree.file? q = some f → f.writable = true) :
    ∀ f, r.1.tree.file? q = some f → f.writable = true := by
  cases h with
  | skipped | stopped => exact hq
  | done _ _ _ hstore =>
      rcases store_eq_ok_iff.mp hstore with ⟨-, rfl⟩ | ⟨-, hwrite⟩
      · exact hq
      · intro f hf
        by_cases hlocate : p.tree.locate q = p.tree.locate path
        · obtain ⟨g, hg, hg'⟩ := FileTree.file?_of_writeText hwrite
          have hlocate' := (FileTree.alike_of_writeText hwrite).locate
          have hsame := FileTree.file?_congr
            (((hlocate' q).trans hlocate).trans (hlocate' path).symm)
          cases (hsame.trans hg').symm.trans hf
          exact hq g ((FileTree.file?_congr hlocate).trans hg)
        · exact hq f
            ((FileTree.file?_of_writeText_ne hwrite hlocate).symm.trans hf)

/-- If every listed file can be written, everything can be written that there
is to write. -/
theorem writes_ok_of_writable
    (h : ∀ path ∈ paths, ∀ f, tree.file? path = some f → f.writable = true)
    {before : FileTree} {migrated : String}
    (hwrites : Writes rules tree paths before path migrated) :
    ∃ after, before.writeText path migrated = .ok after := by
  obtain ⟨front, back, done, rfl, hdone, rfl, hfile, -⟩ := hwrites
  obtain ⟨q, hq, -⟩ := run_eq_ok_iff.mp hdone
  rw [run_of_done hq] at hfile ⊢
  have hwritable :
      ∀ f, (visitAll rules .write { tree } front).1.tree.file? path = some f →
      f.writable = true :=
    visitAll_keeps (I := fun s => ∀ f, s.tree.file? path = some f →
      f.writable = true) (fun _ _ _ _ hs h => h.writable hs) (h path (by simp))
  rw [hq] at hwritable
  obtain ⟨f, hf⟩ := FileTree.isFile_iff.mp hfile
  obtain ⟨names, hnames, hentry⟩ := FileTree.file?_eq_some_iff.mp hf
  exact ⟨_, FileTree.writeText_eq_ok_iff.mpr
    ⟨names, f, hnames, hentry, hwritable f hf, rfl⟩⟩

/-- A file that is written holds the bytes that it held before if and only if
the text is the same. -/
theorem bytes?_bne_of_writeText {text migrated : String} {tree' : FileTree}
    (hread : tree.readText path = .ok text)
    (hwrite : tree.writeText path migrated = .ok tree') :
    (tree.bytes? path != tree'.bytes? path) = (migrated != text) := by
  obtain ⟨f, hf, hf'⟩ := FileTree.file?_of_writeText hwrite
  have hbefore : f.contents = .text text := (File.read_eq_ok_iff.mp
    ((FileTree.readText_of_file? hf).symm.trans hread)).2
  rw [FileTree.bytes?, FileTree.bytes?, hf, hf', Option.map_some,
    Option.map_some, hbefore, Bool.eq_iff_iff, bne_iff_ne, bne_iff_ne, ne_eq,
    Option.some.injEq, Contents.toBytes_text_inj, eq_comm]

/-- In write mode the files that count as changed are those that hold other
bytes afterwards. -/
theorem visitAll_changed (h : visitAll rules .write p paths = (p', none))
    (hd : Distinct p.tree paths) :
    p'.summary.changed = p.summary.changed ++ paths.filter fun path =>
        p.tree.bytes? path != p'.tree.bytes? path := by
  induction paths generalizing p with
  | nil =>
      cases h
      exact (List.append_nil _).symm
  | cons path paths ih =>
      obtain ⟨q, hvisited, h⟩ := visitAll_cons_inv h
      have hsame := hvisited.file?_eq fun _ => hd
      have hdr := (distinct_congr hvisited.alike).mpr hd
      have hhead : p'.tree.bytes? path = q.tree.bytes? path := by
        have huntouched := visitAll_untouched rules .write hdr.untouched
        rw [h] at huntouched
        exact FileTree.bytes?_congr huntouched
      have hfilter :
          (paths.filter fun q' => q.tree.bytes? q' != p'.tree.bytes? q') =
          paths.filter fun q' => p.tree.bytes? q' != p'.tree.bytes? q' :=
        List.filter_congr fun q' hq' => by
          rw [FileTree.bytes?_congr (hsame q' hq')]
      rw [ih h hdr.tail, hfilter, List.filter_cons, hhead]
      cases hvisited with
      | skipped hfile =>
          rw [if_neg (by simp)]
          show p.summary.changed ++ [] ++ _ = _
          rw [List.append_nil]
      | done _ hread _ hstore =>
          rw [bytes?_bne_of_writeText hread (writeText_of_store hstore),
            Summary.changed_append, Summary.ofFile, List.append_assoc]
          split <;> rfl

/-- A batch in check mode leaves the tree as it is and, if no file is listed
twice, says what a batch in write mode does, as long as everything can be
written that there is to write: it fails with the same error, or counts the
same. The files that it says would change are those that hold other bytes after
a batch in write mode. -/
theorem check_predicts_write (rules : Rules) {tree : FileTree}
    {paths : List String} (hd : Distinct tree paths) :
    (run rules .check tree paths).tree = tree ∧
    ((∀ before path migrated, Writes rules tree paths before path migrated →
        ∃ after, before.writeText path migrated = .ok after) →
      (run rules .check tree paths).result =
        (run rules .write tree paths).result) ∧
    ∀ done, (run rules .write tree paths).result = .ok done →
      done.changed = paths.filter fun path => tree.bytes? path !=
          (run rules .write tree paths).tree.bytes? path := by
  refine ⟨?_, fun hwrites => ?_, fun done hdone => ?_⟩
  · rw [run_tree, visitAll_check_tree]
  · rw [check_result_eq_forecast,
      run_result_eq_forecast rules .write (fun _ => hd) fun _ => hwrites]
  · obtain ⟨p, hp, rfl⟩ := run_eq_ok_iff.mp hdone
    rw [visitAll_changed hp hd, run_tree, hp]
    rfl

/-- A directory with a file, and a file beside it. -/
def drafts : FileTree where
  entries :=
    [(["old"], .directory), (["old", "a"], .file { contents := .text "old()" }),
    (["b"], .file { contents := .text "older()" })]

/-- A call can be looked for, and these are the places of it in some texts. -/
theorem call_checked : Migration.accepted (.code "old()") .plain [] = true ∧
    (Migration.meaning (.code "old()")).closed = true ∧
    (Migration.meaning (.code "old()")).solid = true ∧
    (Migration.meaning (.code "old()")).allTaken 0 none "old()".toList =
      [(0, 5, [])] ∧
    (Migration.meaning (.code "old()")).allTaken 0 none "older()".toList = [] ∧
    (Migration.meaning (.code "old()")).allTaken 0 none "new(old())".toList =
      [(4, 9, [])] := by
  decide +kernel

/-- A rule that renames a call does so, and leaves a longer name. -/
theorem rename_runs :
    ∃ r, Rule.compile "rename" (Shape.code "old()").pattern .plain
      (Template.produce [.text "new()"]) = .ok r ∧
    (Rules.run [r] "old()").2 = .ok "new()" ∧
    (Rules.run [r] "older()").2 = .ok "older()" := by
  obtain ⟨haccepted, hclosed, hsolid, hold, holder, -⟩ := call_checked
  obtain ⟨r, hr, -, hmade⟩ :=
    Migration.made_of_accepted "rename" [.text "new()"] haccepted List.nodup_nil
  refine ⟨r, hr, ?_, ?_⟩
  · rw [Rule.run_once hmade.denotes hclosed hsolid hold
      (by rw [hmade.produce]; rfl)]
    rfl
  · rw [Rules.run, Rule.apply_eq_self hmade.denotes]
    · rfl
    · intro i j l hl
      have hmem := (Pattern.mem_allTaken_iff hsolid).mpr hl
      rw [holder] at hmem
      cases hmem

theorem drafts_files :
    drafts.file? "old/a" = some { contents := .text "old()" } ∧
    drafts.file? "./b" = some { contents := .text "older()" } ∧
    drafts.file? "old" = none :=
  ⟨rfl, rfl, rfl⟩

/-- A rule that renames a call changes one of two files, and both modes say so.
The directory is passed over. -/
theorem check_predicts_write_rename :
    let paths := ["old/a", "old", "./b"]
    let done : Summary := { processed := 2, changed := ["old/a"], skipped := 1 }
    ∃ r, Rule.compile "rename" (Shape.code "old()").pattern .plain
        (Template.produce [.text "new()"]) = .ok r ∧
      Distinct drafts paths ∧ (run [r] .check drafts paths).tree = drafts ∧
      (run [r] .check drafts paths).result = .ok done ∧
      (run [r] .write drafts paths).result = .ok done ∧
      ["old/a"] =
        paths.filter fun path => drafts.bytes? path !=
          (run [r] .write drafts paths).tree.bytes? path := by
  intro paths done
  have hd : Distinct drafts paths := by
    show List.Nodup [["old", "a"], ["b"]]
    decide
  obtain ⟨r, hr, hrun, hrun'⟩ := rename_runs
  obtain ⟨hfirst, hsecond, hnone⟩ := drafts_files
  have hforecast : forecast [r] drafts paths = .ok done := by
    have hskip : preview [r] drafts "old" = .ok .ofSkipped := by
      rw [preview, FileTree.isFile, hnone]
      rfl
    simp only [paths, forecast, hskip, preview_of_file? hfirst rfl hrun,
      preview_of_file? hsecond rfl hrun']
    rfl
  have hwritable : ∀ path ∈ paths, ∀ f, drafts.file? path = some f →
      f.writable = true := by
    simp only [paths, List.forall_mem_cons, hfirst, hsecond, hnone]
    simp
  obtain ⟨htree, hsame, hchanged⟩ := check_predicts_write [r] hd
  have hcheck : (run [r] .check drafts paths).result = .ok done :=
    (check_result_eq_forecast [r] drafts paths).trans hforecast
  have hwrite :=
    (hsame fun _ _ _ => writes_ok_of_writable hwritable).symm.trans hcheck
  exact ⟨r, hr, hd, htree, hcheck, hwrite, hchanged done hwrite⟩

end Batch

end Codemod
