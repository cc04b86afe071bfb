import AvroBindings.Files.Tree
import Mathlib.Data.List.Nodup

/-! Trees of files, told by the names that lead into them. Putting a file or an empty directory into
a tree leaves all other files where they are, and adds none. -/

namespace AvroBindings

structure Path.IsName (name : String) : Prop where
  notDots : name ∉ ["", ".", ".."]
  noSlash : '/' ∉ name.toList

instance (name : String) : Decidable (Path.IsName name) :=
  decidable_of_iff (name ∉ ["", ".", ".."] ∧ '/' ∉ name.toList)
    ⟨fun h => ⟨h.1, h.2⟩, fun h => ⟨h.notDots, h.noSlash⟩⟩

namespace FileTree

inductive Proper : FileTree → Prop where
  | file (content : ByteArray) : Proper (file content)
  | directory (entries : List (String × FileTree)) (nodup : (entries.map Prod.fst).Nodup)
    (names : ∀ entry ∈ entries, Path.IsName entry.1) (h : ∀ entry ∈ entries, Proper entry.2) :
    Proper (directory entries)

/-- What some names lead to, each an entry of what those before it lead to. -/
def at? : FileTree → List String → Option FileTree
  | tree, [] => some tree
  | tree, name :: rest => (tree.entry? name).bind (at? · rest)

variable {tree target : FileTree}

theorem at?_append (first second : List String) (tree : FileTree) :
    tree.at? (first ++ second) = (tree.at? first).bind (·.at? second) := by
  induction first generalizing tree with
  | nil => rfl
  | cons name rest ih =>
    rw [List.cons_append, at?, at?, Option.bind_assoc]
    exact congrArg _ (funext ih)

/-- Nothing stands below a file or in an empty directory. -/
def IsBare : FileTree → Prop
  | file _ => True
  | directory entries => entries = []

theorem IsBare.at? (h : tree.IsBare) {names : List String} (hn : names ≠ []) :
    tree.at? names = none := by
  obtain ⟨name, rest, rfl⟩ := List.exists_cons_of_ne_nil hn
  cases tree with
  | file content => rfl
  | directory entries =>
    cases h
    rfl

def entries : FileTree → List (String × FileTree)
  | directory entries => entries
  | file _ => []

theorem entry?_eq (tree : FileTree) (name : String) :
    tree.entry? name = tree.entries.lookup name := by
  cases tree <;> rfl

theorem Proper.entries (h : tree.Proper) : (tree.entries.map Prod.fst).Nodup ∧
    ∀ entry ∈ tree.entries, Path.IsName entry.1 ∧ entry.2.Proper := by
  cases h with
  | file content => exact ⟨List.nodup_nil, by simp [FileTree.entries]⟩
  | directory entries nodup names h => exact ⟨nodup, fun entry hm => ⟨names entry hm, h entry hm⟩⟩

def withEntry (name : String) (child : FileTree) (entries : List (String × FileTree)) :
    List (String × FileTree) :=
  if entries.any (·.1 == name)
    then entries.map fun entry => if entry.1 == name then (name, child) else entry
    else entries ++ [(name, child)]

theorem insert_cons (name : String) (rest : List String) (target : FileTree) :
    insert tree (name :: rest) target = directory (withEntry name
      (insert tree rest ((target.entries.lookup name).getD emptyDirectory)) target.entries) := by
  cases target <;> rfl

section WithEntry

variable {name : String} {child : FileTree} {own : List (String × FileTree)}

theorem map_fst_withEntry : (withEntry name child own).map Prod.fst =
    if name ∈ own.map Prod.fst then own.map Prod.fst else own.map Prod.fst ++ [name] := by
  have ha : own.any (·.1 == name) ↔ name ∈ own.map Prod.fst := by simp
  unfold withEntry
  split
  next h =>
    rw [if_pos (ha.1 h), List.map_map]
    refine List.map_congr_left fun entry hm => ?_
    by_cases he : entry.1 = name <;> simp [he]
  next h =>
    rw [if_neg (mt ha.2 h), List.map_append]
    rfl

theorem mem_withEntry {entry : String × FileTree} (h : entry ∈ withEntry name child own) :
    entry = (name, child) ∨ entry ∈ own := by
  unfold withEntry at h
  split at h
  next =>
    obtain ⟨other, hm, rfl⟩ := List.mem_map.1 h
    split
    next => exact .inl rfl
    next => exact .inr hm
  next => exact (List.mem_append.1 h).symm.imp List.mem_singleton.1 id

theorem lookup_cons (key : String) (tree : FileTree) (rest : List (String × FileTree))
    (other : String) :
    ((key, tree) :: rest).lookup other = if other = key then some tree else rest.lookup other := by
  rw [List.lookup_cons]
  by_cases h : other = key
  · simp [h]
  · simp [h, beq_eq_false_iff_ne.2 h]

theorem lookup_eq_none_iff : own.lookup name = none ↔ name ∉ own.map Prod.fst := by
  induction own with
  | nil => simp
  | cons first rest ih =>
    rw [lookup_cons, List.map_cons, List.mem_cons]
    by_cases h : name = first.1
    · simp [h]
    · simp [h, ih]

theorem mem_of_lookup (h : own.lookup name = some child) : (name, child) ∈ own := by
  induction own with
  | nil => cases h
  | cons first rest ih =>
    rw [lookup_cons] at h
    split at h
    next hn =>
      cases h
      rw [hn]
      exact List.mem_cons_self
    next => exact List.mem_cons_of_mem first (ih h)

theorem lookup_replaced (other : String) :
    (own.map fun entry => if entry.1 == name then (name, child) else entry).lookup other =
      if other = name then (own.lookup name).map fun _ => child else own.lookup other := by
  induction own with
  | nil => simp
  | cons first rest ih =>
    obtain ⟨key, tree⟩ := first
    rw [List.map_cons, lookup_cons, lookup_cons]
    by_cases hk : key = name
    · subst hk
      rw [if_pos (beq_self_eq_true key), lookup_cons, ih]
      by_cases ho : other = key <;> simp [ho]
    · have hb : ¬(key == name) = true := by simpa using hk
      rw [if_neg hb, lookup_cons, ih]
      by_cases ho : other = name
      · subst ho
        simp [Ne.symm hk]
      · simp [ho]

theorem lookup_withEntry (other : String) : (withEntry name child own).lookup other =
    if other = name then some child else own.lookup other := by
  have ha : own.any (·.1 == name) ↔ name ∈ own.map Prod.fst := by simp
  unfold withEntry
  split
  next h =>
    have hs : own.lookup name ≠ none := fun hn => lookup_eq_none_iff.1 hn (ha.1 h)
    obtain ⟨tree, ht⟩ := Option.ne_none_iff_exists'.1 hs
    rw [lookup_replaced, ht]
    rfl
  next h =>
    rw [List.lookup_append, lookup_cons]
    by_cases ho : other = name
    · rw [ho, lookup_eq_none_iff.2 (mt ha.2 h), if_pos rfl, if_pos rfl]
      rfl
    · simp [ho]

theorem lookup_of_mem (hn : (own.map Prod.fst).Nodup) (h : (name, child) ∈ own) :
    own.lookup name = some child := by
  induction own with
  | nil => cases h
  | cons first rest ih =>
    obtain ⟨key, tree⟩ := first
    rw [List.map_cons, List.nodup_cons] at hn
    rw [lookup_cons]
    obtain he | hm := List.mem_cons.1 h
    · cases he
      exact if_pos rfl
    · rw [if_neg, ih hn.2 hm]
      rintro rfl
      exact hn.1 (List.mem_map.2 ⟨_, hm, rfl⟩)

end WithEntry

theorem Proper.at? (h : tree.Proper) {names : List String} (ha : tree.at? names = some target) :
    target.Proper := by
  induction names generalizing tree with
  | nil =>
    cases ha
    exact h
  | cons name rest ih =>
    obtain ⟨child, hc, ha⟩ := Option.bind_eq_some_iff.1 ha
    rw [entry?_eq] at hc
    exact ih (h.entries.2 _ (mem_of_lookup hc)).2 ha

theorem Proper.isName_of_at? (h : tree.Proper) {names : List String}
    (ha : tree.at? names = some target) : ∀ name ∈ names, Path.IsName name := by
  induction names generalizing tree with
  | nil => exact List.forall_mem_nil _
  | cons name rest ih =>
    obtain ⟨child, hc, ha⟩ := Option.bind_eq_some_iff.1 ha
    rw [entry?_eq] at hc
    obtain ⟨hn, hp⟩ := h.entries.2 _ (mem_of_lookup hc)
    exact List.forall_mem_cons.2 ⟨hn, ih hp ha⟩

theorem Proper.insert (ht : tree.Proper) {names : List String}
    (hn : ∀ name ∈ names, Path.IsName name) (h : target.Proper) :
    (insert tree names target).Proper := by
  induction names generalizing target with
  | nil => exact ht
  | cons name rest ih =>
    obtain ⟨hnodup, he⟩ := h.entries
    obtain ⟨hname, hrest⟩ := List.forall_mem_cons.1 hn
    have hc : ((target.entries.lookup name).getD emptyDirectory).Proper := by
      cases hl : target.entries.lookup name with
      | none => exact .directory [] (by simp) (by simp) (by simp)
      | some child => exact (he _ (mem_of_lookup hl)).2
    have hi := ih hrest hc
    rw [insert_cons]
    refine .directory _ ?_ ?_ ?_
    · rw [map_fst_withEntry]
      split
      next => exact hnodup
      next hm =>
        refine List.nodup_append.2 ⟨hnodup, List.nodup_singleton name, ?_⟩
        rintro other ho last hl rfl
        exact hm (List.mem_singleton.1 hl ▸ ho)
    · intro entry hm
      obtain rfl | hm := mem_withEntry hm
      · exact hname
      · exact (he entry hm).1
    · intro entry hm
      obtain rfl | hm := mem_withEntry hm
      · exact hi
      · exact (he entry hm).2

theorem file_of_insert (ht : tree.IsBare) {content : ByteArray} {names others : List String}
    (h : (insert tree names target).at? others = some (file content)) :
    (others = names ∧ tree = file content) ∨ target.at? others = some (file content) := by
  induction names generalizing target others with
  | nil =>
    by_cases ho : others = []
    · subst ho
      exact .inl ⟨rfl, Option.some.inj h⟩
    · have hb := ht.at? ho
      rw [show insert tree [] target = tree from rfl, hb] at h
      cases h
  | cons name rest ih =>
    rw [insert_cons] at h
    cases others with
    | nil => cases h
    | cons other others =>
      rw [at?, entry?_eq] at h
      change ((withEntry _ _ _).lookup other).bind _ = _ at h
      rw [lookup_withEntry] at h
      rw [at?, entry?_eq]
      by_cases ho : other = name
      · rw [if_pos ho, Option.bind_some] at h
        subst ho
        obtain ⟨rfl, hf⟩ | hf := ih h
        · exact .inl ⟨rfl, hf⟩
        · right
          cases hl : target.entries.lookup other with
          | none =>
            rw [hl] at hf
            cases others with
            | nil => cases hf
            | cons => cases hf
          | some child =>
            rw [hl] at hf
            exact hf
      · rw [if_neg ho] at h
        exact .inr h

theorem schemaFilesBelow_eq (path : String) (own : List (String × FileTree)) :
    schemaFilesBelow path own =
      own.map fun entry => (entry.1, schemaFiles (Path.child path entry.1) entry.2) := by
  induction own with
  | nil => rfl
  | cons first rest ih => rw [schemaFilesBelow, ih, List.map_cons]

/-- The schema files are the files at whose paths a schema can stand. -/
theorem mem_schemaFiles_iff (h : tree.Proper) {start path : String} :
    path ∈ tree.schemaFiles start ↔ ∃ names content, tree.at? names = some (file content) ∧
      Path.isSchemaFile path ∧ path = names.foldl Path.child start := by
  induction h generalizing start with
  | file content =>
    rw [schemaFiles]
    constructor
    · intro hm
      split at hm
      next hs =>
        obtain rfl := List.mem_singleton.1 hm
        exact ⟨[], content, rfl, hs, rfl⟩
      next => cases hm
    · rintro ⟨names, other, ha, hs, rfl⟩
      cases names with
      | nil =>
        rw [List.foldl_nil] at hs ⊢
        rw [if_pos hs]
        exact List.mem_singleton_self start
      | cons name rest => cases ha
  | directory own nodup names h ih =>
    rw [schemaFiles, schemaFilesBelow_eq, List.mem_flatMap]
    constructor
    · rintro ⟨files, hf, hm⟩
      obtain ⟨entry, he, rfl⟩ := List.mem_map.1 (List.mem_mergeSort.1 hf)
      obtain ⟨rest, content, ha, hs, hp⟩ := (ih entry he).1 hm
      refine ⟨entry.1 :: rest, content, ?_, hs, hp⟩
      rw [at?, entry?, lookup_of_mem nodup he]
      exact ha
    · rintro ⟨_ | ⟨name, rest⟩, content, ha, hs, hp⟩
      · cases ha
      · obtain ⟨child, hc, ha⟩ := Option.bind_eq_some_iff.1 ha
        have he : (name, child) ∈ own := mem_of_lookup hc
        exact ⟨_, List.mem_mergeSort.2 (List.mem_map_of_mem he),
          (ih _ he).2 ⟨rest, content, ha, hs, hp⟩⟩

end FileTree

end AvroBindings
