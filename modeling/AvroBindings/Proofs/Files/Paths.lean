import AvroBindings.Proofs.Files.Trees

/-! Paths and the names in them. A path without dots for parts leads to what its names lead to, and
the absolute form of any path is one of these. -/

namespace AvroBindings

namespace Path

def names (path : String) : List String := (components path).filter (· ≠ "")

theorem components_ne_nil (path : String) : components path ≠ [] :=
  mt List.map_eq_nil_iff.1 (List.splitOn_ne_nil '/' path.toList)

theorem components_slash (before after : String) :
    components (before ++ "/" ++ after) = components before ++ components after := by
  unfold components
  rw [String.toList_append, String.toList_append, List.append_assoc, ← List.map_append,
    ← List.splitOn_append_cons_self]
  rfl

theorem components_name {name : String} (h : '/' ∉ name.toList) : components name = [name] := by
  unfold components
  rw [List.splitOn_eq_singleton h]
  simp

theorem components_intercalate {first : String} {rest : List String}
    (h : ∀ name ∈ first :: rest, '/' ∉ name.toList) :
    components ("/".intercalate (first :: rest)) = first :: rest := by
  induction rest generalizing first with
  | nil => rw [String.intercalate_singleton, components_name (h first List.mem_cons_self)]
  | cons second rest ih =>
    rw [String.intercalate_cons_cons, components_slash,
      components_name (h first List.mem_cons_self), ih (List.forall_mem_cons.1 h).2]
    rfl

theorem noSlash_of_mem_components {path part : String} (h : part ∈ components path) :
    '/' ∉ part.toList := by
  obtain ⟨text, ht, rfl⟩ := List.mem_map.1 h
  rw [String.toList_ofList]
  exact notMem_of_mem_splitOn ht

/-- A path from the root on, without dots for parts. -/
structure IsPlain (path : String) : Prop where
  absolute : isAbsolute path
  noDots : ∀ part ∈ components path, part ≠ "." ∧ part ≠ ".."

variable {path : String}

theorem IsPlain.ne_empty (h : IsPlain path) : path ≠ "" := by
  rintro rfl
  cases h.absolute

theorem isAbsolute_append (h : isAbsolute path) (after : String) : isAbsolute (path ++ after) := by
  unfold isAbsolute at h ⊢
  rw [String.toList_append]
  cases hp : path.toList with
  | nil => rw [hp] at h; cases h
  | cons c rest => rw [hp] at h; exact h

theorem components_child (h : path ≠ "") : ∃ before,
    (∀ name : String, '/' ∉ name.toList → components (child path name) = before ++ [name]) ∧
      before ⊆ components path ∧ before.filter (· ≠ "") = names path := by
  unfold child names
  rw [show path.isEmpty = false by simpa using h, Bool.false_or]
  split
  next hl =>
    obtain ⟨front, hf⟩ := List.getLast?_eq_some_iff.1 (eq_of_beq hl)
    have hp : path = String.ofList front ++ "/" ++ "" := by
      rw [← String.toList_inj, hf]
      simp
    have hc : components path = components (String.ofList front) ++ [""] := by
      rw [hp, components_slash]
      rfl
    refine ⟨components (String.ofList front), fun name hn => ?_, ?_, ?_⟩
    · rw [hp, String.append_empty, components_slash, components_name hn]
    · rw [hc]
      exact List.subset_append_left _ _
    · rw [hc, List.filter_append]
      simp
  next =>
    exact ⟨components path, fun name hn => by rw [components_slash, components_name hn],
      List.Subset.refl _, rfl⟩

/-- A path that ends in a name, so that children stand behind a slash of their own. -/
structure IsOpen (path : String) : Prop where
  ne_empty : path ≠ ""
  noSlash : path.toList.getLast? ≠ some '/'

theorem IsOpen.child_eq (h : IsOpen path) (name : String) :
    child path name = path ++ "/" ++ name := by
  unfold child
  rw [if_neg]
  simp [h.ne_empty, h.noSlash]

theorem IsName.isOpen_append {name : String} (hn : IsName name) (before : String) :
    IsOpen (before ++ name) := by
  have hne : name.toList ≠ [] := fun he =>
    hn.notDots (String.toList_eq_nil_iff.1 he ▸ List.mem_cons_self)
  refine ⟨fun he => hne ?_, fun hl => hn.noSlash ?_⟩
  · rw [(String.append_eq_empty_iff.1 he).2]
    rfl
  · rw [String.toList_append, List.getLast?_append_of_ne_nil _ hne] at hl
    exact List.mem_of_getLast? hl

theorem IsName.isOpen_child {name : String} (hn : IsName name) (path : String) :
    IsOpen (child path name) := by
  unfold child
  split
  next => exact hn.isOpen_append path
  next => exact hn.isOpen_append (path ++ "/")

theorem IsOpen.components_descend (h : IsOpen path) {below : List String}
    (hn : ∀ name ∈ below, IsName name) :
    components (below.foldl child path) = components path ++ below := by
  induction below generalizing path with
  | nil => exact (List.append_nil _).symm
  | cons name rest ih =>
    obtain ⟨hname, hrest⟩ := List.forall_mem_cons.1 hn
    rw [List.foldl_cons, ih (hname.isOpen_child path) hrest, h.child_eq, components_slash,
      components_name hname.noSlash, List.append_assoc]
    rfl

theorem components_descend (h : path ≠ "") : ∃ before, ∀ name : String, ∀ below : List String,
    IsName name → (∀ other ∈ below, IsName other) →
      components (below.foldl child (child path name)) = before ++ name :: below := by
  obtain ⟨before, hc, -, -⟩ := components_child h
  refine ⟨before, fun name below hn hb => ?_⟩
  rw [(hn.isOpen_child path).components_descend hb, hc name hn.noSlash, List.append_assoc]
  rfl

section Child

variable {name : String} (h : IsPlain path) (hn : IsName name)

include h hn

theorem IsPlain.child : IsPlain (child path name) := by
  obtain ⟨before, hc, hb, -⟩ := components_child h.ne_empty
  refine ⟨?_, ?_⟩
  · unfold Path.child
    split
    next => exact isAbsolute_append h.absolute name
    next => exact isAbsolute_append (isAbsolute_append h.absolute "/") name
  · intro part hp
    rw [hc name hn.noSlash] at hp
    obtain hp | hp := List.mem_append.1 hp
    · exact h.noDots part (hb hp)
    · rw [List.mem_singleton.1 hp]
      have hd := hn.notDots
      simp only [List.mem_cons, not_or] at hd
      exact ⟨hd.2.1, hd.2.2.1⟩

theorem names_child : names (Path.child path name) = names path ++ [name] := by
  obtain ⟨before, hc, -, hf⟩ := components_child h.ne_empty
  have hne : name ≠ "" := fun he => hn.notDots (he ▸ List.mem_cons_self)
  unfold names at hf ⊢
  rw [hc name hn.noSlash, List.filter_append, hf]
  simp [hne]

theorem getLast?_components_child : (components (Path.child path name)).getLast? = some name := by
  obtain ⟨before, hc, -, -⟩ := components_child h.ne_empty
  rw [hc name hn.noSlash, List.getLast?_concat]

end Child

theorem IsPlain.descend (h : IsPlain path) {below : List String}
    (hn : ∀ name ∈ below, IsName name) :
    IsPlain (below.foldl Path.child path) ∧
      names (below.foldl Path.child path) = names path ++ below := by
  induction below generalizing path with
  | nil => exact ⟨h, (List.append_nil _).symm⟩
  | cons name rest ih =>
    obtain ⟨hname, hrest⟩ := List.forall_mem_cons.1 hn
    obtain ⟨hp, he⟩ := ih (h.child hname) hrest
    refine ⟨hp, ?_⟩
    rw [List.foldl_cons, he, names_child h hname, List.append_assoc]
    rfl

theorem IsPlain.getLast?_descend (h : IsPlain path) {below : List String}
    (hn : ∀ name ∈ below, IsName name) (hl : below ≠ [] ∨ (components path).getLast? ≠ some "") :
    (components (below.foldl Path.child path)).getLast? ≠ some "" := by
  induction below generalizing path with
  | nil => exact hl.resolve_left fun hne => hne rfl
  | cons name rest ih =>
    obtain ⟨hname, hrest⟩ := List.forall_mem_cons.1 hn
    refine ih (h.child hname) hrest (.inr ?_)
    rw [getLast?_components_child h hname]
    intro he
    exact hname.notDots (Option.some.inj he ▸ List.mem_cons_self)

theorem mem_normalise {parts : List String} {name : String} (h : name ∈ normalise parts) :
    name ∈ parts ∧ name ∉ ["", ".", ".."] := by
  suffices hs : ∀ kept, name ∈ parts.foldl normalise.step kept →
      name ∈ kept ∨ (name ∈ parts ∧ name ∉ ["", ".", ".."]) by
    obtain hk | hp := hs [] (List.mem_reverse.1 h)
    · cases hk
    · exact hp
  clear h
  induction parts with
  | nil => exact fun kept hk => .inl hk
  | cons part rest ih =>
    intro kept hk
    obtain hk | ⟨hm, hd⟩ := ih _ hk
    · unfold normalise.step at hk
      split at hk
      next => exact .inl hk
      next => exact .inl hk
      next => exact .inl (List.mem_of_mem_drop hk)
      next h₁ h₂ h₃ =>
        obtain rfl | hk := List.mem_cons.1 hk
        · refine .inr ⟨List.mem_cons_self, ?_⟩
          simpa using ⟨fun he => h₁ he, fun he => h₂ he, fun he => h₃ he⟩
        · exact .inl hk
    · exact .inr ⟨List.mem_cons_of_mem part hm, hd⟩

/-- Where nothing is taken back, only empty parts and single dots are dropped. -/
theorem normalise_eq {parts : List String} (h : ".." ∉ parts) :
    normalise parts = parts.filter (· ∉ ["", "."]) := by
  suffices hs : ∀ kept, parts.foldl normalise.step kept =
      (parts.filter (· ∉ ["", "."])).reverse ++ kept by
    unfold normalise
    rw [hs [], List.append_nil, List.reverse_reverse]
  induction parts with
  | nil => exact fun kept => rfl
  | cons part rest ih =>
    intro kept
    rw [List.foldl_cons, ih (List.not_mem_of_not_mem_cons h)]
    unfold normalise.step
    split
    next => simp
    next => simp
    next => exact absurd List.mem_cons_self h
    next he hd _ =>
      have hk : part ∉ ["", "."] := by simpa using ⟨he, hd⟩
      rw [List.filter_cons, if_pos (decide_eq_true hk), List.reverse_cons, List.append_assoc]
      rfl

section Absolute

variable {workingDirectory : List String}

theorem absoluteComponents_of_isPlain (h : IsPlain path) :
    absoluteComponents workingDirectory path = names path := by
  unfold absoluteComponents names
  rw [if_pos h.absolute, normalise_eq fun hp => (h.noDots _ hp).2 rfl]
  exact List.filter_congr fun part hp => by simp [(h.noDots part hp).1]

theorem isName_of_mem_absoluteComponents (h : ∀ name ∈ workingDirectory, IsName name)
    {name : String} (hm : name ∈ absoluteComponents workingDirectory path) : IsName name := by
  obtain ⟨hp, hd⟩ := mem_normalise hm
  refine ⟨hd, ?_⟩
  split at hp
  next => exact noSlash_of_mem_components hp
  next =>
    obtain hp | hp := List.mem_append.1 hp
    · exact (h name hp).noSlash
    · exact noSlash_of_mem_components hp

theorem components_absolute (workingDirectory : List String) (path : String) :
    isAbsolute (absolute workingDirectory path) ∧
      ∃ slashes, (∀ part ∈ slashes, part = "") ∧ components (absolute workingDirectory path) =
        slashes ++ components ("/".intercalate (absoluteComponents workingDirectory path)) := by
  generalize hr : "/".intercalate (absoluteComponents workingDirectory path) = rest
  have hone : components ("/" ++ rest) = [""] ++ components rest := components_slash "" rest
  have htwo : components ("//" ++ rest) = ["", ""] ++ components rest := components_slash "/" rest
  unfold absolute
  rw [hr]
  split
  next => exact ⟨isAbsolute_append rfl rest, [""], by simp, hone⟩
  next => exact ⟨isAbsolute_append rfl rest, ["", ""], by simp, htwo⟩
  next => exact ⟨isAbsolute_append rfl rest, [""], by simp, hone⟩

theorem exists_components_absolute (h : ∀ name ∈ workingDirectory, IsName name) (path : String) :
    ∃ slashes, (∀ part ∈ slashes, part = "") ∧ components (absolute workingDirectory path) =
      slashes ++ absoluteComponents workingDirectory path := by
  obtain ⟨-, slashes, hs, hc⟩ := components_absolute workingDirectory path
  -- no names at all leave an empty text, which has an empty part
  cases hp : absoluteComponents workingDirectory path with
  | nil =>
    rw [hp] at hc
    refine ⟨slashes ++ [""], fun part hm => ?_, by rw [hc, List.append_nil]; rfl⟩
    obtain hm | hm := List.mem_append.1 hm
    · exact hs part hm
    · exact List.mem_singleton.1 hm
  | cons first rest =>
    have hn : ∀ name ∈ first :: rest, IsName name := fun name hm =>
      isName_of_mem_absoluteComponents h (hp ▸ hm)
    rw [hp] at hc
    exact ⟨slashes, hs, by rw [hc, components_intercalate fun name hm => (hn name hm).noSlash]⟩

theorem isPlain_absolute (h : ∀ name ∈ workingDirectory, IsName name) (path : String) :
    IsPlain (absolute workingDirectory path) ∧
      names (absolute workingDirectory path) = absoluteComponents workingDirectory path := by
  have hn : ∀ name ∈ absoluteComponents workingDirectory path, IsName name :=
    fun name => isName_of_mem_absoluteComponents h
  obtain ⟨slashes, hs, hc⟩ := exists_components_absolute h path
  refine ⟨⟨(components_absolute workingDirectory path).1, fun part hp => ?_⟩, ?_⟩
  · rw [hc] at hp
    obtain hp | hp := List.mem_append.1 hp
    · rw [hs part hp]
      decide
    · have hd := (hn part hp).notDots
      simp only [List.mem_cons, not_or] at hd
      exact ⟨hd.2.1, hd.2.2.1⟩
  · unfold names
    rw [hc, List.filter_append, List.filter_eq_nil_iff.2 (fun part hp => by simp [hs part hp]),
      List.nil_append]
    refine List.filter_eq_self.2 fun name hp => ?_
    have hd := (hn name hp).notDots
    simp only [List.mem_cons, not_or] at hd
    simpa using hd.1

end Absolute

end Path

namespace FileTree

variable {around : List FileTree} {tree : FileTree} {parts : List String}

theorem walk_empty (h : parts ≠ []) : walk around tree ("" :: parts) = walk around tree parts := by
  obtain ⟨part, rest, rfl⟩ := List.exists_cons_of_ne_nil h
  cases tree with
  | file content => rfl
  | directory entries => rfl

theorem walk_name {name : String} (h : name ∉ ["", ".", ".."]) :
    walk around tree (name :: parts) =
      (tree.entry? name).bind fun child => walk (tree :: around) child parts := by
  simp only [List.mem_cons, List.not_mem_nil, or_false, not_or] at h
  rw [walk.eq_def]
  cases tree with
  | file content => rfl
  | directory entries => simp [isDirectory, h]

theorem at?_of_walk {target : FileTree} (h : ∀ part ∈ parts, part ≠ "." ∧ part ≠ "..")
    (hw : walk around tree parts = some target) :
    tree.at? (parts.filter (· ≠ "")) = some target := by
  induction parts generalizing around tree with
  | nil => exact hw
  | cons part rest ih =>
    obtain ⟨hp, hr⟩ := List.forall_mem_cons.1 h
    by_cases he : part = ""
    · subst he
      have hf : ("" :: rest).filter (· ≠ "") = rest.filter (· ≠ "") := by simp
      rw [walk] at hw
      split at hw
      next => cases hw
      next => rw [hf, ih hr hw]
    · have hf : (part :: rest).filter (· ≠ "") = part :: rest.filter (· ≠ "") := by simp [he]
      rw [walk_name (by simp [he, hp])] at hw
      obtain ⟨child, hc, hw⟩ := Option.bind_eq_some_iff.1 hw
      rw [hf, at?, hc, Option.bind_some, ih hr hw]

/-- Names lead to a file exactly if no slash stands at the end. -/
theorem walk_eq_file_iff {content : ByteArray} (h : ∀ part ∈ parts, part ≠ "." ∧ part ≠ "..") :
    walk around tree parts = some (file content) ↔
      tree.at? (parts.filter (· ≠ "")) = some (file content) ∧ parts.getLast? ≠ some "" := by
  induction parts generalizing around tree with
  | nil => simp [walk, at?]
  | cons part rest ih =>
    obtain ⟨hp, hr⟩ := List.forall_mem_cons.1 h
    by_cases he : part = ""
    · subst he
      have hf : ("" :: rest).filter (· ≠ "") = rest.filter (· ≠ "") := by simp
      by_cases hn : rest = []
      · subst hn
        cases tree <;> simp [walk, isDirectory]
      · obtain ⟨last, hl⟩ := Option.ne_none_iff_exists'.1 (mt List.getLast?_eq_none_iff.1 hn)
        rw [walk_empty hn, ih hr, hf, List.getLast?_cons, hl]
        rfl
    · have hf : (part :: rest).filter (· ≠ "") = part :: rest.filter (· ≠ "") := by simp [he]
      have hl : (part :: rest).getLast? ≠ some "" ↔ rest.getLast? ≠ some "" := by
        rw [List.getLast?_cons]
        cases rest.getLast? <;> simp [he]
      rw [walk_name (by simp [he, hp]), hf, at?, hl]
      cases hc : tree.entry? part with
      | none => simp
      | some child => exact ih hr

end FileTree

namespace FileSystem

variable {files : FileSystem} {path : String} (h : Path.IsPlain path)

include h

theorem find?_eq_walk : files.find? path = FileTree.walk [] files.root (Path.components path) := by
  unfold find?
  rw [if_neg (by simpa using h.ne_empty), if_pos h.absolute]

theorem at?_of_find? {tree : FileTree} (hf : files.find? path = some tree) :
    files.root.at? (Path.names path) = some tree := by
  rw [find?_eq_walk h] at hf
  exact FileTree.at?_of_walk h.noDots hf

theorem find?_eq_file_iff {content : ByteArray} : files.find? path = some (.file content) ↔
    files.root.at? (Path.names path) = some (.file content) ∧
      (Path.components path).getLast? ≠ some "" := by
  rw [find?_eq_walk h]
  exact FileTree.walk_eq_file_iff h.noDots

end FileSystem

end AvroBindings
