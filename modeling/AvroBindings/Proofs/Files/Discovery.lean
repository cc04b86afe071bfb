import AvroBindings.Proofs.Files.Output

/-! The schema files below a path. They are listed in the order of the names that lead to them, each
once, and the files below several paths are those below each, one path after another. -/

namespace AvroBindings

namespace Path

/-- The names of schema files have their extension after something else than dots. -/
def IsSchemaName (name : String) : Prop :=
  ∃ stem, name = stem ++ ".avsc" ∧ ∃ c ∈ stem.toList, c ≠ '.'

theorem isSchemaFile_iff (path : String) : isSchemaFile path ↔ IsSchemaName (baseName path) := by
  unfold isSchemaFile baseName
  generalize afterLast '/' path.toList = name
  constructor
  · intro h
    split at h
    next before after hs =>
      obtain ⟨rfl, -⟩ := eq_of_splitLast hs
      rw [Bool.and_eq_true, beq_iff_eq, List.any_eq_true] at h
      obtain ⟨rfl, c, hc, hd⟩ := h
      refine ⟨String.ofList before, ?_, c, by simpa using hc, by simpa using hd⟩
      rw [← String.toList_inj]
      simp
    next => cases h
  · rintro ⟨stem, hn, c, hc, hd⟩
    have hs : name = stem.toList ++ '.' :: "avsc".toList := by
      rw [← String.toList_inj, String.toList_ofList, String.toList_append] at hn
      exact hn
    rw [hs, splitLast_append (by decide)]
    simp only [BEq.rfl, Bool.true_and, List.any_eq_true]
    exact ⟨c, hc, by simpa using hd⟩

theorem baseName_child {name : String} (hn : '/' ∉ name.toList) (path : String) :
    baseName (child path name) = name := by
  have ha : ∀ before : List Char, afterLast '/' (before ++ '/' :: name.toList) = name.toList := by
    intro before
    rw [afterLast, splitLast_append hn]
  unfold child
  split
  next h =>
    rw [Bool.or_eq_true, beq_iff_eq] at h
    obtain he | hl := h
    · rw [String.isEmpty_iff.1 he, String.empty_append, baseName, afterLast,
        (splitLast_eq_none_iff _).2 hn, String.ofList_toList]
    · obtain ⟨front, hf⟩ := List.getLast?_eq_some_iff.1 hl
      rw [baseName, String.toList_append, hf, List.append_assoc]
      exact (congrArg _ (ha front)).trans String.ofList_toList
  next =>
    rw [baseName, String.toList_append, String.toList_append, List.append_assoc]
    exact (congrArg _ (ha path.toList)).trans String.ofList_toList

theorem isSchemaFile_descend {below : List String} {name : String} (hn : IsName name)
    (path : String) :
    isSchemaFile ((below ++ [name]).foldl child path) ↔ IsSchemaName name := by
  rw [List.foldl_append, isSchemaFile_iff, List.foldl_cons, List.foldl_nil,
    baseName_child hn.noSlash]

/-- A path that takes no part back and ends in a name. -/
structure IsDirect (path : String) : Prop where
  forward : ".." ∉ components path
  last : ∀ part ∈ (components path).getLast?, part ∉ ["", "."]

section Direct

variable {path : String} {workingDirectory : List String}

/-- The parts that lead to a path from the root on. -/
def fromRoot (workingDirectory : List String) (path : String) : List String :=
  if isAbsolute path then components path else workingDirectory ++ components path

theorem getLast?_fromRoot (workingDirectory : List String) (path : String) :
    (fromRoot workingDirectory path).getLast? = (components path).getLast? := by
  unfold fromRoot
  split
  next => rfl
  next => exact List.getLast?_append_of_ne_nil _ (components_ne_nil path)

variable (hw : ∀ name ∈ workingDirectory, IsName name) (h : IsDirect path)

include hw h

theorem IsDirect.forward_fromRoot : ".." ∉ fromRoot workingDirectory path := by
  unfold fromRoot
  split
  next => exact h.forward
  next =>
    refine fun hm => (List.mem_append.1 hm).elim (fun hm => ?_) h.forward
    exact (hw ".." hm).notDots (by simp)

theorem IsDirect.absoluteComponents_eq : absoluteComponents workingDirectory path =
    (fromRoot workingDirectory path).filter (· ∉ ["", "."]) :=
  normalise_eq (h.forward_fromRoot hw)

theorem IsDirect.absolute : IsDirect (Path.absolute workingDirectory path) := by
  refine ⟨fun hm => (((isPlain_absolute hw path).1.noDots _ hm).2) rfl, fun part hp => ?_⟩
  obtain ⟨last, hl⟩ := Option.ne_none_iff_exists'.1
    (mt List.getLast?_eq_none_iff.1 (components_ne_nil path))
  have hne : absoluteComponents workingDirectory path ≠ [] := by
    rw [h.absoluteComponents_eq hw]
    refine List.ne_nil_of_mem (a := last) (List.mem_filter.2 ⟨?_, decide_eq_true (h.last last hl)⟩)
    exact List.mem_of_getLast? ((getLast?_fromRoot workingDirectory path).trans hl)
  obtain ⟨slashes, -, hc⟩ := exists_components_absolute hw path
  rw [hc, List.getLast?_append_of_ne_nil _ hne] at hp
  have hd := (isName_of_mem_absoluteComponents hw (List.mem_of_getLast? hp)).notDots
  simp only [List.mem_cons, List.not_mem_nil, or_false, not_or] at hd ⊢
  exact ⟨hd.1, hd.2.1⟩

end Direct

end Path

namespace FileTree

variable {tree target : FileTree}

theorem Proper.walk (h : tree.Proper) {around : List FileTree} (ho : ∀ other ∈ around, other.Proper)
    {parts : List String} (hw : FileTree.walk around tree parts = some target) : target.Proper := by
  induction parts generalizing around tree with
  | nil =>
    cases hw
    exact h
  | cons part rest ih =>
    rw [FileTree.walk.eq_def] at hw
    dsimp only at hw
    split at hw
    next => cases hw
    next =>
      split at hw
      next => exact ih h ho hw
      next => exact ih h ho hw
      next =>
        split at hw
        next => exact ih h (List.forall_mem_nil _) hw
        next parent others =>
          obtain ⟨hp, hr⟩ := List.forall_mem_cons.1 ho
          exact ih hp hr hw
      next =>
        obtain ⟨child, hc, hw⟩ := Option.bind_eq_some_iff.1 hw
        rw [entry?_eq] at hc
        exact ih (h.entries.2 _ (mem_of_lookup hc)).2 (List.forall_mem_cons.2 ⟨h, ho⟩) hw

theorem append_lt_append {before : List String} {name other : String} (h : name < other)
    (rest others : List String) : before ++ name :: rest < before ++ other :: others := by
  induction before with
  | nil => exact .rel h
  | cons first before ih => exact .cons ih

theorem pairwise_mergeSort_names {β : Type} {entries : List (String × β)}
    (h : (entries.map Prod.fst).Nodup) :
    (entries.mergeSort fun left right => left.1 ≤ right.1).Pairwise
      fun left right => left.1 < right.1 := by
  have hp := List.mergeSort_perm entries fun left right => left.1 ≤ right.1
  have hs : (entries.mergeSort fun left right => left.1 ≤ right.1).Pairwise
      fun left right => left.1 ≤ right.1 := by
    refine (List.pairwise_mergeSort (fun _ _ _ => ?_) (fun _ _ => ?_) entries).imp of_decide_eq_true
    · simpa using String.le_trans
    · simpa using String.le_total _ _
  have hn : (entries.mergeSort fun left right => left.1 ≤ right.1).Pairwise
      fun left right => left.1 ≠ right.1 :=
    List.pairwise_map.1 ((hp.map Prod.fst).nodup_iff.2 h)
  exact (hs.and hn).imp fun ⟨hle, hne⟩ => Std.lt_of_le_of_ne hle hne

/-- Schema files are listed in the order of the parts of their paths. -/
theorem pairwise_schemaFiles (h : tree.Proper) {start : String} (hs : start ≠ "") :
    (tree.schemaFiles start).Pairwise
      fun first second => Path.components first < Path.components second := by
  induction h generalizing start with
  | file content =>
    rw [schemaFiles]
    split
    next => exact List.pairwise_singleton _ _
    next => exact .nil
  | directory own nodup names h ih =>
    have hk : ((schemaFilesBelow start own).map Prod.fst).Nodup := by
      rw [schemaFilesBelow_eq, List.map_map]
      exact nodup
    obtain ⟨before, hb⟩ := Path.components_descend hs
    -- the files below an entry go on by its name
    have hc : ∀ files ∈ (schemaFilesBelow start own).mergeSort fun left right => left.1 ≤ right.1,
        files.2.Pairwise (fun first second => Path.components first < Path.components second) ∧
        ∀ file ∈ files.2, ∃ rest, Path.components file = before ++ files.1 :: rest := by
      intro files hf
      rw [List.mem_mergeSort, schemaFilesBelow_eq] at hf
      obtain ⟨entry, he, rfl⟩ := List.mem_map.1 hf
      refine ⟨ih entry he ((names entry he).isOpen_child start).ne_empty, fun file hm => ?_⟩
      obtain ⟨rest, content, ha, -, rfl⟩ := (mem_schemaFiles_iff (h entry he)).1 hm
      exact ⟨rest, hb entry.1 rest (names entry he) ((h entry he).isName_of_at? ha)⟩
    rw [schemaFiles, List.pairwise_flatMap]
    refine ⟨fun files hf => (hc files hf).1, ?_⟩
    refine (pairwise_mergeSort_names hk).imp_of_mem fun hl hr hlt file hf other ho => ?_
    obtain ⟨rest, he⟩ := (hc _ hl).2 file hf
    obtain ⟨others, hx⟩ := (hc _ hr).2 other ho
    rw [he, hx]
    exact append_lt_append hlt rest others

theorem walk_eq_at? {around : List FileTree} {parts : List String} (hd : ".." ∉ parts)
    (hl : ∀ last ∈ parts.getLast?, last ∉ ["", "."]) :
    walk around tree parts = tree.at? (parts.filter (· ∉ ["", "."])) := by
  induction parts generalizing around tree with
  | nil => rfl
  | cons part rest ih =>
    have hr := List.not_mem_of_not_mem_cons hd
    have hlr : ∀ last ∈ rest.getLast?, last ∉ ["", "."] := fun last ho =>
      hl last (by rw [List.getLast?_cons, ho]; rfl)
    by_cases hp : part ∈ ["", "."]
    · have hn : rest ≠ [] := by
        rintro rfl
        exact hl part rfl hp
      obtain ⟨last, he⟩ := Option.ne_none_iff_exists'.1 (mt List.getLast?_eq_none_iff.1 hn)
      have hm : rest.filter (· ∉ ["", "."]) ≠ [] :=
        List.ne_nil_of_mem (List.mem_filter.2 ⟨List.mem_of_getLast? he, decide_eq_true (hlr last he)⟩)
      have hf : (part :: rest).filter (· ∉ ["", "."]) = rest.filter (· ∉ ["", "."]) := by
        rw [List.filter_cons, if_neg]
        exact fun hn => of_decide_eq_true hn hp
      have hw : walk around tree (part :: rest) =
          if tree.isDirectory then walk around tree rest else none := by
        obtain rfl | rfl := List.mem_pair.1 hp <;> rw [walk] <;> cases tree <;> rfl
      rw [hw, hf]
      cases tree with
      | file content =>
        have hb : (file content).IsBare := trivial
        exact (hb.at? hm).symm
      | directory own => exact ih hr hlr
    · have hx : part ∉ ["", ".", ".."] := by
        have hne : part ≠ ".." := fun he => hd (he ▸ List.mem_cons_self)
        simp only [List.mem_cons, List.not_mem_nil, or_false, not_or] at hp ⊢
        exact ⟨hp.1, hp.2, hne⟩
      rw [walk_name hx, List.filter_cons, if_pos (decide_eq_true hp), at?]
      exact congrArg _ (funext fun child => ih hr hlr)

end FileTree

namespace FileSystem

variable {files : FileSystem} {path : String}

theorem Proper.find? (h : files.Proper) {tree : FileTree} (hf : files.find? path = some tree) :
    tree.Proper := by
  unfold FileSystem.find? at hf
  split at hf
  next => cases hf
  next => split at hf <;> exact h.root.walk (List.forall_mem_nil _) hf

theorem find?_eq_at? (h : files.Proper) (hd : Path.IsDirect path) :
    files.find? path = files.root.at? (files.place path) := by
  have hne : path ≠ "" := by
    rintro rfl
    exact hd.last "" rfl (by simp)
  have hf : files.find? path =
      FileTree.walk [] files.root (Path.fromRoot files.workingDirectory path) := by
    unfold FileSystem.find? Path.fromRoot
    rw [if_neg (by simpa using hne)]
    split <;> rfl
  rw [hf, place, hd.absoluteComponents_eq h.names]
  refine FileTree.walk_eq_at? (hd.forward_fromRoot h.names) ?_
  rw [Path.getLast?_fromRoot]
  exact hd.last

theorem place_absolute (h : files.Proper) (path : String) :
    files.place (files.absolute path) = files.place path := by
  obtain ⟨hp, hn⟩ := Path.isPlain_absolute h.names path
  exact (Path.absoluteComponents_of_isPlain hp).trans hn

/-- A path is made absolute without a look at files. What it leads to stays the same, unless it takes
back a part or does not end in a name. -/
theorem find?_absolute (h : files.Proper) (hd : Path.IsDirect path) :
    files.find? (files.absolute path) = files.find? path := by
  rw [find?_eq_at? h hd, ← place_absolute h]
  exact find?_eq_at? h (hd.absolute h.names)

theorem collect_directory (h : files.Proper) {entries : List (String × FileTree)}
    (hd : files.find? path = some (.directory entries)) :
    ∃ found, files.collect path = .ok found ∧
      (found.Pairwise fun first second => Path.components first < Path.components second) ∧
      ∀ file, file ∈ found ↔ ∃ names name content,
        (FileTree.directory entries).at? (names ++ [name]) = some (.file content) ∧
        Path.IsSchemaName name ∧ file = (names ++ [name]).foldl Path.child path := by
  have hp := h.find? hd
  have hne : path ≠ "" := by
    rintro rfl
    cases hd
  refine ⟨_, by unfold collect; rw [hd], FileTree.pairwise_schemaFiles hp hne, fun file => ?_⟩
  rw [FileTree.mem_schemaFiles_iff hp]
  constructor
  · rintro ⟨below, content, ha, hs, rfl⟩
    obtain rfl | ⟨names, name, rfl⟩ := List.eq_nil_or_concat' below
    · cases ha
    · have hn := hp.isName_of_at? ha name (by simp)
      exact ⟨names, name, content, ha, (Path.isSchemaFile_descend hn path).1 hs, rfl⟩
  · rintro ⟨names, name, content, ha, hs, rfl⟩
    have hn := hp.isName_of_at? ha name (by simp)
    exact ⟨_, content, ha, (Path.isSchemaFile_descend hn path).2 hs, rfl⟩

variable {paths : List String}

theorem collectAll_paths (input : Input) : files.collectAll input.paths = files.collectAll input :=
  rfl

theorem collectAll_of_missing (h : ∃ path ∈ paths, files.find? (files.absolute path) = none) :
    ∃ before first after, paths = before ++ first :: after ∧
      (∀ other ∈ before, (files.find? (files.absolute other)).isSome) ∧
      files.find? (files.absolute first) = none ∧
      files.collectAll paths = .error (.inputNotFound (files.absolute first)) := by
  obtain ⟨before, first, after, rfl, hf, hb⟩ := Traversal.exists_first h
  have hs : ∀ other ∈ before, (files.find? (files.absolute other)).isSome :=
    fun other ho => Option.isSome_iff_ne_none.2 (hb other ho)
  have hg : ((before ++ first :: after).mapM fun path => files.collect (files.absolute path)) =
      .error (.inputNotFound (files.absolute first)) := by
    refine Traversal.mapM_eq_error_iff.2 ⟨before, first, after, rfl, fun other ho => ?_, ?_⟩
    · obtain ⟨tree, ht⟩ := Option.isSome_iff_exists.1 (hs other ho)
      exact ⟨tree.schemaFiles (files.absolute other), by unfold collect; rw [ht]⟩
    · unfold collect
      rw [hf]
  refine ⟨before, first, after, rfl, hs, hf, ?_⟩
  unfold collectAll
  rw [Input.paths_several, hg]
  simp [bind, Except.bind]

theorem collectAll_singleton (path : String) :
    files.collectAll [path] = files.collect (files.absolute path) := by
  unfold collectAll
  rw [Input.paths_several, List.mapM_cons, List.mapM_nil]
  cases files.collect (files.absolute path) with
  | error e => rfl
  | ok found => simp [pure, Except.pure, bind, Except.bind]

theorem collectAll_of_found (hn : paths ≠ [])
    (h : ∀ path ∈ paths, (files.find? (files.absolute path)).isSome) :
    ∃ results, List.Forall₂ (fun path found => files.collectAll [path] = .ok found) paths results ∧
      files.collectAll paths = .ok results.flatten := by
  have hc : ∃ results, (paths.mapM fun path => files.collect (files.absolute path)) =
      .ok results := by
    refine Traversal.exists_mapM_eq_ok fun path hm => ?_
    obtain ⟨tree, ht⟩ := Option.isSome_iff_exists.1 (h path hm)
    exact ⟨tree.schemaFiles (files.absolute path), by unfold collect; rw [ht]⟩
  obtain ⟨results, hr⟩ := hc
  refine ⟨results, (Traversal.mapM_eq_ok_iff.1 hr).imp fun path found hf => ?_, ?_⟩
  · rw [collectAll_singleton, hf]
  · unfold collectAll
    rw [Input.paths_several, hr]
    simp [hn, pure, Except.pure, bind, Except.bind]

theorem collectAll_eq_missingInput_iff (input : Input) :
    files.collectAll input = .error .missingInput ↔
      input = .nothing ∨ input = .single "" ∨ input = .several [] := by
  have hp : input.paths = [] ↔ input = .nothing ∨ input = .single "" ∨ input = .several [] := by
    cases input <;> simp [Input.paths]
  rw [← hp, ← collectAll_paths]
  constructor
  · intro hc
    by_contra hn
    by_cases h : ∃ path ∈ input.paths, files.find? (files.absolute path) = none
    · obtain ⟨_, _, _, -, -, -, hm⟩ := collectAll_of_missing h
      cases hm.symm.trans hc
    · have hf : ∀ path ∈ input.paths, (files.find? (files.absolute path)).isSome :=
        fun path hm => Option.isSome_iff_ne_none.2 fun he => h ⟨path, hm, he⟩
      obtain ⟨_, -, hr⟩ := collectAll_of_found hn hf
      cases hr.symm.trans hc
  · intro h
    rw [h]
    rfl

/-- The schema files below a directory are listed once each, in the order of the parts of their
paths. Those below several paths are listed path after path, or the first path that is missing is
the error. What counts is what stands at a path once it is made absolute. That is the same as before,
unless the path takes back a part or does not end in a name. -/
theorem collects_in_order (h : files.Proper) :
    (∀ path entries, files.find? path = some (.directory entries) →
      ∃ found, files.collect path = .ok found ∧
        (found.Pairwise fun first second => Path.components first < Path.components second) ∧
        ∀ file, file ∈ found ↔ ∃ names name content,
          (FileTree.directory entries).at? (names ++ [name]) = some (.file content) ∧
          Path.IsSchemaName name ∧ file = (names ++ [name]).foldl Path.child path) ∧
    (∀ paths, (∃ path ∈ paths, files.find? (files.absolute path) = none) →
      ∃ before first after, paths = before ++ first :: after ∧
        (∀ other ∈ before, (files.find? (files.absolute other)).isSome) ∧
        files.find? (files.absolute first) = none ∧
        files.collectAll paths = .error (.inputNotFound (files.absolute first))) ∧
    (∀ paths ≠ [], (∀ path ∈ paths, (files.find? (files.absolute path)).isSome) →
      ∃ results,
        List.Forall₂ (fun path found => files.collectAll [path] = .ok found ∧
          files.collect (files.absolute path) = .ok found) paths results ∧
        files.collectAll paths = .ok results.flatten) ∧
    ∀ path, Path.IsDirect path → files.find? (files.absolute path) = files.find? path := by
  refine ⟨fun path entries => collect_directory h, fun paths => collectAll_of_missing,
    fun paths hn hf => ?_, fun path => find?_absolute h⟩
  obtain ⟨results, hr, hc⟩ := collectAll_of_found hn hf
  exact ⟨results, hr.imp fun path found hs => ⟨hs, (collectAll_singleton path).symm.trans hs⟩, hc⟩

def scattered : FileSystem :=
  let file := FileTree.file ByteArray.empty
  { root := .directory [("src", .directory [("a.avsc", file), (".avsc", file),
      ("old.avsc", .directory [(".b.avsc", file)]), ("a", .directory [("x.avsc", file)])])]
    workingDirectory := ["src"] }

theorem proper_scattered : scattered.Proper := by
  have hf : FileTree.Proper (.file ByteArray.empty) := .file _
  have ho : FileTree.Proper (.directory [(".b.avsc", .file ByteArray.empty)]) :=
    .directory _ (by decide) (by decide +kernel) (List.forall_mem_singleton.2 hf)
  have ha : FileTree.Proper (.directory [("x.avsc", .file ByteArray.empty)]) :=
    .directory _ (by decide) (by decide +kernel) (List.forall_mem_singleton.2 hf)
  refine ⟨.directory _ (by decide) (by decide +kernel) (List.forall_mem_singleton.2 ?_), ?_⟩
  · refine .directory _ (by decide) (by decide +kernel) ?_
    simpa using ⟨hf, ho, ha⟩
  · decide +kernel

theorem collects_in_order_scattered :
    (∃ found, scattered.collect "/src" = .ok found ∧
      (found.Pairwise fun first second => Path.components first < Path.components second) ∧
      "/src/old.avsc/.b.avsc" ∈ found ∧ "/src/a/x.avsc" ∈ found) ∧
    (∃ results, scattered.collectAll ["old.avsc", "a"] = .ok (List.flatten results)) ∧
    scattered.collectAll ["old.avsc", "gone", "a"] = .error (.inputNotFound "/src/gone") := by
  obtain ⟨hd, hm, hf, -⟩ := collects_in_order proper_scattered
  obtain ⟨found, hc, hp, hi⟩ := hd "/src" _ rfl
  obtain ⟨results, -, hr⟩ := hf ["old.avsc", "a"] (by decide) (by decide +kernel)
  obtain ⟨before, first, after, hs, hb, hn, he⟩ := hm ["old.avsc", "gone", "a"]
    ⟨"gone", by simp, Option.isNone_iff_eq_none.1 (by decide +kernel)⟩
  refine ⟨⟨found, hc, hp, (hi _).2 ⟨["old.avsc"], ".b.avsc", _, rfl, ⟨".b", rfl, ?_⟩, rfl⟩,
    (hi _).2 ⟨["a"], "x.avsc", _, rfl, ⟨"x", rfl, ?_⟩, rfl⟩⟩, ⟨results, hr⟩, ?_⟩
  · exact ⟨'b', by decide, by decide⟩
  · exact ⟨'x', by decide, by decide⟩
  · have hg : scattered.find? (scattered.absolute "gone") = none :=
      Option.isNone_iff_eq_none.1 (by decide +kernel)
    obtain _ | ⟨_, _ | ⟨_, rest⟩⟩ := before
    · cases hs
      exact absurd (Option.isNone_iff_eq_none.2 hn) (by decide +kernel)
    · cases hs
      have ha : scattered.absolute "gone" = "/src/gone" := by decide +kernel
      rw [he, ha]
    · simp only [List.cons_append, List.cons.injEq] at hs
      obtain ⟨rfl, rfl, -⟩ := hs
      have hb := hb "gone" (by simp)
      rw [hg] at hb
      cases hb

end FileSystem

end AvroBindings
