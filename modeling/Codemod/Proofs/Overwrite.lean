import Codemod.FileTree
import Mathlib.Logic.Basic

/-!
# Overwriting files

Writing a text to a file changes what this file holds and nothing else. The
directories stay, and so do the files as such, so every path leads to where it
led before: `Alike` says that of two trees, and `alike_of_writeText` that
writing keeps it. What a file holds afterwards is said by `file?_of_writeText`,
in terms of the names that a path leads to, since two paths may lead to one
file.
-/

namespace Codemod

/-- The bytes of what a file holds. -/
def Contents.toBytes : Contents → List UInt8
  | .text s => s.toByteArray.data.toList
  | .bytes bs => bs

theorem Contents.toBytes_text_inj {s t : String} :
    (Contents.text s).toBytes = (Contents.text t).toBytes ↔ s = t := by
  constructor
  · intro h
    refine String.toByteArray_inj.mp (ByteArray.ext (Array.toList_inj.mp h))
  · rintro rfl
    rfl

namespace File

/-- A text is read from a file that is readable and holds a text. -/
theorem read_eq_ok_iff {f : File} {s : String} :
    f.read = .ok s ↔ f.readable = true ∧ f.contents = .text s := by
  rw [read]
  cases f.readable with
  | false => simp
  | true => cases f.contents <;> simp

/-- What was written over a text that could be read can be read. -/
theorem read_overwritten {f : File} {s : String}
    (h : f.read = .ok s) (t : String) :
    read { f with contents := .text t } = .ok t :=
  read_eq_ok_iff.mpr ⟨(read_eq_ok_iff.mp h).1, rfl⟩

end File

namespace FileTree

/-- The bytes of the file at a path, if there is a file. -/
def bytes? (t : FileTree) (path : String) : Option (List UInt8) :=
  (t.file? path).map (·.contents.toBytes)

/-! ## Files by their paths -/

theorem ne_nil_of_file {t : FileTree} {names : List String} {f : File}
    (h : t.entry? names = some (.file f)) : names ≠ [] := by
  intro hnil
  subst hnil
  cases h

theorem file?_eq_some_iff {t : FileTree} {path : String} {f : File} :
    t.file? path = some f ↔
      ∃ names, t.locate path = .ok names ∧ t.entry? names = some (.file f) := by
  rw [file?]
  constructor
  · intro h
    split at h
    · next names hnames =>
        split at h
        · next g hg =>
            cases h
            exact ⟨names, hnames, hg⟩
        · cases h
    · cases h
  · rintro ⟨names, hnames, hf⟩
    rw [hnames]
    simp only [hf]

theorem isFile_iff {t : FileTree} {path : String} :
    t.isFile path = true ↔ ∃ f, t.file? path = some f := by
  rw [isFile, Option.isSome_iff_exists]

theorem readText_of_file? {t : FileTree} {path : String} {f : File}
    (h : t.file? path = some f) :
    t.readText path = f.read := by
  obtain ⟨names, hnames, hf⟩ := file?_eq_some_iff.mp h
  simp only [readText, hnames, hf, bind, Except.bind]

theorem writeText_of_file? {t : FileTree} {path : String} {f : File}
    {names : List String}
    (hnames : t.locate path = .ok names)
    (hf : t.entry? names = some (.file f)) (text : String) :
    t.writeText path text =
      if f.writable then
        .ok (t.replace names (.file { f with contents := .text text }))
      else
        .error f.writeFault := by
  simp only [writeText, hnames, hf, bind, Except.bind, File.write]
  cases f.writable <;> rfl

theorem writeText_eq_ok_iff {t t' : FileTree} {path text : String} :
    t.writeText path text = .ok t' ↔ ∃ names f, t.locate path = .ok names ∧
      t.entry? names = some (.file f) ∧ f.writable = true ∧
      t' = t.replace names (.file { f with contents := .text text }) := by
  constructor
  · intro h
    cases hnames : t.locate path with
    | error why =>
        simp only [writeText, hnames, bind, Except.bind] at h
        cases h
    | ok names =>
        cases hf : t.entry? names with
        | none =>
            simp only [writeText, hnames, hf, bind, Except.bind] at h
            cases h
        | some entry =>
            cases entry with
            | directory =>
                simp only [writeText, hnames, hf, bind, Except.bind] at h
                cases h
            | file f =>
                rw [writeText_of_file? hnames hf] at h
                split at h
                · next hw =>
                    cases h
                    exact ⟨names, f, rfl, hf, hw, rfl⟩
                · cases h
  · rintro ⟨names, f, hnames, hf, hw, rfl⟩
    rw [writeText_of_file? hnames hf, if_pos hw]

/-! ## Replacing an entry -/

theorem lookup_replaced (l : List (List String × Entry)) (names k : List String)
    (e : Entry) :
    (l.map fun (k', old) =>
        if k' = names then (k', e) else (k', old)).lookup k =
      if k = names then (l.lookup k).map fun _ => e else l.lookup k := by
  induction l with
  | nil => simp
  | cons x l ih =>
      obtain ⟨k', old⟩ := x
      rw [List.map_cons, List.lookup_cons]
      by_cases hk' : k' = names
      · subst hk'
        rw [if_pos rfl, List.lookup_cons, ih]
        by_cases hk : k = k'
        · subst hk
          simp
        · simp [hk, beq_eq_false_iff_ne.mpr hk]
      · rw [if_neg hk', List.lookup_cons, ih]
        by_cases hk : k = k'
        · subst hk
          simp [hk']
        · simp [beq_eq_false_iff_ne.mpr hk]

theorem find_replace {t : FileTree} {names : List String} (hnames : names ≠ [])
    (e : Entry) (k : List String) : FileTree.entry? (t.replace names e) k =
      if k = names then (t.entry? k).map fun _ => e else t.entry? k := by
  cases k with
  | nil => rw [if_neg hnames.symm]; rfl
  | cons part k => exact lookup_replaced t.entries names (part :: k) e

/-! ## Trees that differ in what files hold -/

/-- The trees have the same directories, and files under the same names. -/
structure Alike (t t' : FileTree) : Prop where
  workDir : t'.workDir = t.workDir
  directory : ∀ k, t'.entry? k = some .directory ↔ t.entry? k = some .directory
  isSome : ∀ k, (t'.entry? k).isSome = (t.entry? k).isSome

namespace Alike

variable {t t' t'' : FileTree}

theorem refl (t : FileTree) : t.Alike t :=
  ⟨rfl, fun _ => Iff.rfl, fun _ => rfl⟩

theorem trans (h : t.Alike t') (h' : t'.Alike t'') : t.Alike t'' :=
  ⟨h'.workDir.trans h.workDir, fun k => (h'.directory k).trans (h.directory k),
    fun k => (h'.isSome k).trans (h.isSome k)⟩

/-- In trees that are alike a path leads to the same names. -/
theorem locate (h : t.Alike t') (path : String) :
    t'.locate path = t.locate path := by
  have hdescend : t'.descend = t.descend := by
    funext here part
    rw [descend, descend]
    simp only [ne_eq, h.directory, h.isSome]
  rw [FileTree.locate, FileTree.locate, hdescend, h.workDir]

theorem isFile (h : t.Alike t') (path : String) :
    t'.isFile path = t.isFile path := by
  have hfile : ∀ {t : FileTree}, t.isFile path = true ↔
      ∃ names, t.locate path = .ok names ∧ (t.entry? names).isSome = true ∧
        ¬ t.entry? names = some .directory := by
    intro t
    rw [isFile_iff]
    constructor
    · rintro ⟨f, hf⟩
      obtain ⟨names, hnames, hf⟩ := file?_eq_some_iff.mp hf
      exact ⟨names, hnames, by rw [hf]; rfl, by rw [hf]; simp⟩
    · rintro ⟨names, hnames, hsome, hdir⟩
      obtain ⟨entry, hentry⟩ := Option.isSome_iff_exists.mp hsome
      cases entry with
      | file f => exact ⟨f, file?_eq_some_iff.mpr ⟨names, hnames, hentry⟩⟩
      | directory => exact absurd hentry hdir
  rw [Bool.eq_iff_iff, hfile, hfile]
  simp only [h.locate, h.isSome, h.directory]

end Alike

variable {t t' : FileTree} {path text : String}

/-- Writing to a file keeps the directories and the files as such. -/
theorem alike_of_writeText (h : t.writeText path text = .ok t') :
    t.Alike t' := by
  obtain ⟨names, f, -, hf, -, rfl⟩ := writeText_eq_ok_iff.mp h
  have hne : names ≠ [] := ne_nil_of_file hf
  refine ⟨rfl, fun k => ?_, fun k => ?_⟩
  · rw [find_replace hne]
    split
    · next hk =>
        subst hk
        simp [hf]
    · exact Iff.rfl
  · rw [find_replace hne]
    split <;> simp

/-- Writing to a file changes what is found on the path that leads to it. -/
theorem file?_of_writeText (h : t.writeText path text = .ok t') :
    ∃ f, t.file? path = some f ∧
    t'.file? path = some { f with contents := .text text } := by
  have halike := alike_of_writeText h
  obtain ⟨names, f, hnames, hf, -, rfl⟩ := writeText_eq_ok_iff.mp h
  have hne : names ≠ [] := ne_nil_of_file hf
  refine ⟨f, file?_eq_some_iff.mpr ⟨names, hnames, hf⟩,
    file?_eq_some_iff.mpr ⟨names, ?_, ?_⟩⟩
  · rw [halike.locate, hnames]
  · rw [find_replace hne, if_pos rfl, hf]
    rfl

/-- Writing to a file changes nothing on paths that lead elsewhere. -/
theorem file?_of_writeText_ne (h : t.writeText path text = .ok t') {q : String}
    (hne : t.locate q ≠ t.locate path) : t'.file? q = t.file? q := by
  have halike := alike_of_writeText h
  obtain ⟨names, f, hnames, hf, -, rfl⟩ := writeText_eq_ok_iff.mp h
  have hnil : names ≠ [] := ne_nil_of_file hf
  rw [hnames] at hne
  rw [file?, file?, halike.locate]
  cases hq : t.locate q with
  | error why => rfl
  | ok k =>
      have hk : k ≠ names := fun heq => hne (by rw [hq, heq])
      simp only [find_replace hnil, if_neg hk]

end FileTree

end Codemod
