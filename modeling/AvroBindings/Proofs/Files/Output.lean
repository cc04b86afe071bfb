import AvroBindings.CommandLine.Run
import AvroBindings.Proofs.Files.Paths
import AvroBindings.Proofs.Traversal

/-! Making an output file. It may ask for directories and takes the place of one file, and all other
files that can be collected then were there before, so that they are converted as before. -/

namespace AvroBindings

namespace FileSystem

structure Proper (files : FileSystem) : Prop where
  root : files.root.Proper
  names : ∀ name ∈ files.workingDirectory, Path.IsName name

/-- A proper file system that has come from another, and has files that were there alone. -/
structure Enlarges (made files : FileSystem) : Prop where
  proper : made.Proper
  workingDirectory : made.workingDirectory = files.workingDirectory
  file : ∀ names content, made.root.at? names = some (.file content) →
    files.root.at? names = some (.file content)

variable {files made : FileSystem} {path : String}

theorem Enlarges.trans {last : FileSystem} (h : last.Enlarges made) (hm : made.Enlarges files) :
    last.Enlarges files :=
  ⟨h.proper, h.workingDirectory.trans hm.workingDirectory,
    fun names content hf => hm.file names content (h.file names content hf)⟩

/-- The names that a path leads through from the root on. -/
def place (files : FileSystem) (path : String) : List String :=
  Path.absoluteComponents files.workingDirectory path

theorem Proper.put (h : files.Proper) {tree : FileTree} (ht : tree.Proper) :
    (files.put path tree).Proper :=
  ⟨ht.insert (fun _ hm => Path.isName_of_mem_absoluteComponents h.names hm) h.root, h.names⟩

theorem enlarges_put_emptyDirectory (h : files.Proper) :
    (files.put path .emptyDirectory).Enlarges files := by
  refine ⟨h.put (.directory [] (by simp) (by simp) (by simp)), rfl, fun names content hf => ?_⟩
  have hb : FileTree.emptyDirectory.IsBare := rfl
  obtain ⟨-, hd⟩ | hf := FileTree.file_of_insert hb hf
  · cases hd
  · exact hf

theorem enlarges_of_makeDirectoriesFrom {start : FileSystem} {paths : List String}
    (h : files.Proper) (hm : makeDirectoriesFrom start files paths = .ok made) :
    made.Enlarges files := by
  induction paths generalizing files with
  | nil =>
    cases hm
    exact ⟨h, rfl, fun _ _ => id⟩
  | cons path rest ih =>
    rw [makeDirectoriesFrom] at hm
    split at hm
    next => exact ih h hm
    next =>
      split at hm
      next =>
        split at hm
        next => cases hm
        next => exact ih h hm
      next =>
        obtain ⟨-, -, hm⟩ := Traversal.bind_eq_ok_iff.1 hm
        have hp : (files.put path .emptyDirectory).Enlarges files := enlarges_put_emptyDirectory h
        exact (ih hp.proper hm).trans hp

theorem isFile_of_collectAll (h : files.Proper) {paths collected : List String}
    (hc : files.collectAll paths = .ok collected) (hm : path ∈ collected) :
    Path.IsPlain path ∧ ∃ content, files.find? path = some (.file content) := by
  unfold collectAll at hc
  split at hc
  next => cases hc
  next =>
    obtain ⟨groups, hg, he⟩ := Traversal.bind_eq_ok_iff.1 hc
    cases he
    obtain ⟨group, hgroup, hm⟩ := List.mem_flatten.1 hm
    obtain ⟨given, -, hf⟩ := Traversal.of_mem_mapM hg hgroup
    obtain ⟨hp, -⟩ := Path.isPlain_absolute h.names given
    change Path.IsPlain (files.absolute given) at hp
    unfold collect at hf
    split at hf
    next => cases hf
    next tree ht =>
      cases hf
      have ha := at?_of_find? hp ht
      have hproper := h.root.at? ha
      obtain ⟨below, content, hb, -, rfl⟩ := (FileTree.mem_schemaFiles_iff hproper).1 hm
      have hn := hproper.isName_of_at? hb
      obtain ⟨hplain, hnames⟩ := hp.descend hn
      refine ⟨hplain, content, (find?_eq_file_iff hplain).2 ⟨?_, hp.getLast?_descend hn ?_⟩⟩
      · rw [hnames, FileTree.at?_append, ha]
        exact hb
      · by_cases hne : below = []
        · subst hne
          cases hb
          exact .inr ((find?_eq_file_iff hp).1 ht).2
        · exact .inl hne

theorem convert_congr (options : Options) (h : made.find? path = files.find? path) :
    made.convert options path = files.convert options path := by
  unfold convert load
  rw [h]

end FileSystem

namespace CommandLine

open FileSystem

variable {files made : FileSystem} {output : String}

theorem exists_of_makeOutput (h : files.Proper) (hm : makeOutput files output = .ok made) :
    ∃ middle : FileSystem, middle.Enlarges files ∧ made = middle.write output ByteArray.empty := by
  unfold makeOutput at hm
  obtain ⟨middle, hd, hm⟩ := Traversal.bind_eq_ok_iff.1 hm
  obtain ⟨-, -, hm⟩ := Traversal.bind_eq_ok_iff.1 hm
  refine ⟨middle, enlarges_of_makeDirectoriesFrom h hd, ?_⟩
  split at hm
  next => cases hm
  next =>
    cases hm
    rfl

/-- A collected file that lies elsewhere than the output is converted as if that were not made. -/
theorem convert_of_makeOutput (h : files.Proper) (hm : makeOutput files output = .ok made)
    {paths collected : List String} (hc : made.collectAll paths = .ok collected) {path : String}
    (hp : path ∈ collected) (hne : files.place path ≠ files.place output) (options : Options) :
    made.convert options path = files.convert options path := by
  obtain ⟨middle, he, rfl⟩ := exists_of_makeOutput h hm
  have hproper : (middle.write output ByteArray.empty).Proper := he.proper.put (.file _)
  obtain ⟨hplain, content, hf⟩ := isFile_of_collectAll hproper hc hp
  refine convert_congr options (hf.trans (Eq.symm ?_))
  obtain ⟨ha, hl⟩ := (find?_eq_file_iff hplain).1 hf
  refine (find?_eq_file_iff hplain).2 ⟨?_, hl⟩
  have hb : (FileTree.file ByteArray.empty).IsBare := trivial
  obtain ⟨hn, -⟩ | ha := FileTree.file_of_insert hb ha
  · rw [he.workingDirectory] at hn
    exact absurd ((Path.absoluteComponents_of_isPlain hplain).trans hn) hne
  · exact he.file _ content ha

end CommandLine

end AvroBindings
