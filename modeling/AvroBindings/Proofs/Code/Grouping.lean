import AvroBindings.Proofs.Naming
import AvroBindings.Proofs.Text.Lines
import AvroBindings.Proofs.Traversal
import Mathlib.Data.List.Induction

/-! Declarations by namespace. The groups are in the order in which their namespaces come first, and
each of them holds what was grouped below its namespace, in order. Below effective namespaces joining
never fails, and the block of a namespace gives back what was put into it. -/

namespace AvroBindings

theorem Json.same_ofSpace (left right : Option String) :
    (Json.ofSpace left).same (.ofSpace right) ↔ left = right := by
  cases left <;> cases right <;>
    simp [ofSpace, same, compareNumbers?, compareNumbers?.integer?]

theorem Json.ofSpace_injective : Function.Injective Json.ofSpace := by
  intro left right h
  cases left <;> cases right <;> cases h <;> rfl

theorem Json.isKey_ofSpace (space : Option String) : (Json.ofSpace space).isKey := by
  cases space <;> rfl

namespace Bundle

/-- The namespace that a text counts for. An empty one is none. -/
def effective (space : Option String) : Option String := space.filter (· ≠ "")

theorem orNull_ofSpace (space : Option String) :
    (Json.ofSpace space).orNull = .ofSpace (effective space) := by
  cases space with
  | none => rfl
  | some space =>
    by_cases h : space = ""
    · subst h
      rfl
    · simp [Json.ofSpace, Json.orNull, Json.isTruthy, effective, h, Option.filter]

section Group

variable {α : Type}

def spaces (items : List (Option String × α)) : List (Option String) :=
  (items.map fun item => effective item.1).eraseDups

def within (space : Option String) (items : List (Option String × α)) : List α :=
  (items.filter fun item => effective item.1 = space).map Prod.snd

/-- The groups that items belong to. -/
def grouped (items : List (Option String × α)) : List (Json × List α) :=
  (spaces items).map fun space => (.ofSpace space, within space items)

theorem spaces_concat (items : List (Option String × α)) (item : Option String × α) :
    spaces (items ++ [item]) =
      if effective item.1 ∈ spaces items then spaces items
      else spaces items ++ [effective item.1] := by
  unfold spaces
  rw [List.map_append, List.eraseDups_append]
  simp only [List.mem_eraseDups]
  split
  next h => simp [List.removeAll, h]
  next h =>
    have hr : ([effective item.1].removeAll (items.map fun item => effective item.1)) =
        [effective item.1] := by simp [List.removeAll, h]
    exact congrArg _ (congrArg List.eraseDups hr)

theorem nodup_spaces (items : List (Option String × α)) : (spaces items).Nodup := by
  induction items using List.reverseRecOn with
  | nil => exact List.nodup_nil
  | append_singleton items item ih =>
    rw [spaces_concat]
    split
    next => exact ih
    next h =>
      refine List.nodup_append.2 ⟨ih, by simp, fun space hs other ho he => h ?_⟩
      rwa [← List.mem_singleton.1 ho, ← he]

theorem within_concat (space : Option String) (items : List (Option String × α))
    (item : Option String × α) :
    within space (items ++ [item]) =
      if space = effective item.1 then within space items ++ [item.2] else within space items := by
  unfold within
  by_cases h : space = effective item.1
  · simp [h]
  · simp [h, Ne.symm h]

theorem within_eq_nil {space : Option String} {items : List (Option String × α)}
    (h : space ∉ spaces items) : within space items = [] := by
  unfold spaces at h
  rw [List.mem_eraseDups] at h
  unfold within
  rw [List.map_eq_nil_iff, List.filter_eq_nil_iff]
  intro item hm he
  exact h (List.mem_map.2 ⟨item, hm, of_decide_eq_true he⟩)

theorem addToGroup_map (space : Option String) (item : α) {keys : List (Option String)}
    (hn : keys.Nodup) {members : Option String → List α} (hm : space ∉ keys → members space = []) :
    addToGroup (.ofSpace space) item (keys.map fun key => (Json.ofSpace key, members key)) =
      (if space ∈ keys then keys else keys ++ [space]).map fun key =>
        (Json.ofSpace key, if key = space then members key ++ [item] else members key) := by
  induction keys with
  | nil => simp [addToGroup, hm]
  | cons key rest ih =>
    obtain ⟨hk, hn⟩ := List.nodup_cons.1 hn
    rw [List.map_cons, addToGroup]
    by_cases he : key = space
    · subst he
      have hr : ∀ other ∈ rest, other ≠ key := fun other ho he => hk (he ▸ ho)
      rw [if_pos ((Json.same_ofSpace key key).2 rfl), if_pos List.mem_cons_self, List.map_cons,
        if_pos rfl]
      refine congrArg _ (List.map_congr_left fun other ho => ?_)
      rw [if_neg (hr other ho)]
    · have hs : space ∈ key :: rest ↔ space ∈ rest := by simp [Ne.symm he]
      rw [if_neg fun h => he ((Json.same_ofSpace key space).1 h)]
      simp only [hs] at hm ⊢
      rw [ih hn hm]
      split <;> simp [he]

theorem addToGroup_grouped (items : List (Option String × α)) (item : Option String × α) :
    addToGroup (.ofSpace (effective item.1)) item.2 (grouped items) = grouped (items ++ [item]) := by
  unfold grouped
  rw [addToGroup_map _ _ (nodup_spaces items) within_eq_nil, spaces_concat]
  simp only [within_concat]

theorem group_eq (items : List (Option String × α)) :
    group (items.map fun item => (Json.ofSpace item.1, item.2)) = .ok (grouped items) := by
  induction items using List.reverseRecOn with
  | nil => rfl
  | append_singleton items item ih =>
    unfold group at ih ⊢
    rw [List.map_append, List.foldlM_append, ih, Traversal.ok_bind, List.map_singleton,
      List.foldlM_cons]
    simp only [orNull_ofSpace, Json.isKey_ofSpace, if_true, addToGroup_grouped]
    rfl

/-- The groups hold exactly the given items, each below its own key, and no key twice. -/
structure Holds (groups : List (Json × List α)) (items : List (Json × α)) : Prop where
  spaces : ∀ key ∈ groups.map Prod.fst, key.IsSpace
  nodup : (groups.map Prod.fst).Nodup
  mem : ∀ key item, (∃ own, (key, own) ∈ groups ∧ item ∈ own) ↔ (key, item) ∈ items

theorem isSpace_effective (space : Option String) : (Json.ofSpace (effective space)).IsSpace := by
  unfold effective
  cases h : space.filter (· ≠ "") with
  | none => exact .none
  | some own => exact .text own (by simpa using (Option.filter_eq_some_iff.1 h).2)

theorem mem_within {space : Option String} {items : List (Option String × α)} {item : α} :
    item ∈ within space items ↔ ∃ own ∈ items, effective own.1 = space ∧ own.2 = item := by
  simp [within]

theorem exists_ofSpace {space : Json} (h : space.IsSpace) :
    ∃ own, Json.ofSpace own = space ∧ effective own = own := by
  cases h with
  | none => exact ⟨none, rfl, rfl⟩
  | text own h => exact ⟨some own, rfl, by simp [effective, h]⟩

theorem holds_grouped {items : List (Option String × α)}
    (h : ∀ item ∈ items, effective item.1 = item.1) :
    Holds (grouped items) (items.map fun item => (Json.ofSpace item.1, item.2)) := by
  have hk : (grouped items).map Prod.fst = (spaces items).map Json.ofSpace := by
    unfold grouped
    rw [List.map_map]
    rfl
  refine ⟨?_, ?_, fun key found => ⟨?_, ?_⟩⟩
  · rw [hk]
    refine List.forall_mem_map.2 fun space hs => ?_
    obtain ⟨item, -, rfl⟩ := List.mem_map.1 (List.mem_eraseDups.1 hs)
    exact isSpace_effective item.1
  · rw [hk]
    exact List.Pairwise.map _ (fun left right hn he => hn (Json.ofSpace_injective he))
      (nodup_spaces items)
  · rintro ⟨own, hm, hf⟩
    obtain ⟨space, -, he⟩ := List.mem_map.1 hm
    cases he
    obtain ⟨item, hi, rfl, rfl⟩ := mem_within.1 hf
    exact List.mem_map.2 ⟨item, hi, by rw [h item hi]⟩
  · intro hm
    obtain ⟨item, hi, he⟩ := List.mem_map.1 hm
    cases he
    have hs : effective item.1 ∈ spaces items :=
      List.mem_eraseDups.2 (List.mem_map_of_mem hi)
    refine ⟨_, List.mem_map.2 ⟨_, hs, ?_⟩, mem_within.2 ⟨item, hi, rfl, rfl⟩⟩
    rw [h item hi]

theorem exists_effective {items : List (Json × α)} (h : ∀ item ∈ items, item.1.IsSpace) :
    ∃ own : List (Option String × α), (own.map fun item => (Json.ofSpace item.1, item.2)) = items ∧
      ∀ item ∈ own, effective item.1 = item.1 := by
  induction items with
  | nil => exact ⟨[], rfl, List.forall_mem_nil _⟩
  | cons item rest ih =>
    obtain ⟨hi, hr⟩ := List.forall_mem_cons.1 h
    obtain ⟨own, rfl, he⟩ := ih hr
    obtain ⟨space, hs, hf⟩ := exists_ofSpace hi
    exact ⟨(space, item.2) :: own, by rw [List.map_cons, hs], List.forall_mem_cons.2 ⟨hf, he⟩⟩

theorem exists_group {items : List (Json × α)} (h : ∀ item ∈ items, item.1.IsSpace) :
    ∃ groups, group items = .ok groups ∧ Holds groups items := by
  obtain ⟨own, rfl, he⟩ := exists_effective h
  exact ⟨grouped own, group_eq own, holds_grouped he⟩

theorem eq_of_mem_group {items : List (Json × α)} (h : ∀ item ∈ items, item.1.IsSpace)
    {groups : List (Json × List α)} (hg : group items = .ok groups) {space : Json} {members : List α}
    (hm : (space, members) ∈ groups) :
    members = (items.filter fun item => item.1.same space).map Prod.snd := by
  obtain ⟨own, rfl, he⟩ := exists_effective h
  rw [group_eq] at hg
  cases hg
  obtain ⟨key, -, hk⟩ := List.mem_map.1 hm
  cases hk
  rw [List.filter_map, List.map_map]
  refine congrArg _ (List.filter_congr fun item hi => ?_)
  rw [he item hi, Bool.eq_iff_iff, decide_eq_true_iff]
  exact (Json.same_ofSpace item.1 key).symm

end Group

/-- What the joined text is made of, with an empty line between every two. -/
def units (options : Options) (texts : List (Json × String)) (groups : List (Json × List String)) :
    List String :=
  if options.withoutNamespaces then texts.map (·.2) else groups.flatMap blocks

theorem exists_join (options : Options) {texts : List (Json × String)}
    (h : ∀ item ∈ texts, item.1.IsSpace) :
    ∃ groups, Holds groups texts ∧
      join options texts = .ok (Layout.paragraphs (units options texts groups)) ∧
      group texts = .ok groups := by
  obtain ⟨groups, hg, hh⟩ := exists_group h
  refine ⟨groups, hh, ?_, hg⟩
  unfold join units
  rw [hg]
  split <;> rfl

/-- What a group puts into the joined text: its texts, or one block of them all if they have a
namespace. -/
def parts (items : List (Option String × String)) : Option String → List String
  | none => within none items
  | some space =>
    [Layout.namespaceBlock space (Layout.paragraphs (within (some space) items))]

theorem flatMap_blocks_grouped (items : List (Option String × String)) :
    (grouped items).flatMap blocks = (spaces items).flatMap (parts items) := by
  unfold grouped
  rw [List.flatMap_map]
  refine congrArg (List.flatMap · _) (funext fun space => ?_)
  cases space <;> rfl

theorem exists_of_mem_spaces {items : List (Option String × String)} {space : String}
    (h : some space ∈ spaces items) : space ≠ "" ∧ ∃ item ∈ items, item.1 = some space := by
  obtain ⟨item, hm, he⟩ := List.mem_map.1 (List.mem_eraseDups.1 h)
  obtain ⟨hs, hne⟩ := Option.filter_eq_some_iff.1 he
  exact ⟨by simpa using hne, item, hm, hs⟩

section Block

variable {space : String}

theorem namespaceBlock_eq (space body : String) :
    Layout.namespaceBlock space body =
      "export namespace " ++ space ++ " " ++ Layout.braces body ++ "" :=
  String.append_empty.symm

theorem single_heading (h : '\n' ∉ space.toList) :
    Layout.Single ("export namespace " ++ space ++ " ") :=
  .append (.append (by decide) h) (by decide)

theorem lines_namespaceBlock (h : '\n' ∉ space.toList) (body : String) :
    Layout.lines (Layout.namespaceBlock space body).toList =
      ("export namespace " ++ space ++ " \x7b").toList ::
        ((Layout.lines body.toList).map (Layout.indentLine 2) ++ ["\x7d".toList]) := by
  have hs : "export namespace " ++ space ++ " " ++ "\x7b" = "export namespace " ++ space ++ " \x7b" :=
    String.append_assoc
  rw [namespaceBlock_eq, Layout.lines_braces (single_heading h) body (by decide), hs,
    String.append_empty]

theorem content_namespaceBlock (h : '\n' ∉ space.toList) (body : String) :
    Layout.content (Layout.namespaceBlock space body) = body := by
  rw [namespaceBlock_eq, Layout.content_braces (single_heading h) body (by decide)]

end Block

/-- Texts are grouped by their namespaces, in the order in which these come first, where null and an
empty namespace are one. Joined, they stand one after the other with blank lines between them: those
without a namespace as they are, and those of another one in a block that gives them back between its
first and its last line, indented. Where namespaces are left out, all stand in their order. -/
theorem join_grouped (options : Options) {items : List (Option String × String)}
    (h : ∀ item ∈ items, ∀ space, item.1 = some space → '\n' ∉ space.toList) :
    group (items.map fun item => (Json.ofSpace item.1, item.2)) =
        .ok ((spaces items).map fun space => (.ofSpace space, within space items)) ∧
      (spaces items).Nodup ∧
      (options.withoutNamespaces →
        join options (items.map fun item => (Json.ofSpace item.1, item.2)) =
          .ok (Layout.paragraphs (items.map Prod.snd))) ∧
      (¬options.withoutNamespaces →
        join options (items.map fun item => (Json.ofSpace item.1, item.2)) =
          .ok (Layout.paragraphs ((spaces items).flatMap (parts items))) ∧
        ∀ space, some space ∈ spaces items → space ≠ "" ∧ ∃ block inner,
          parts items (some space) = [block] ∧
          Layout.lines block.toList =
            ("export namespace " ++ space ++ " \x7b").toList :: (inner ++ ["\x7d".toList]) ∧
          Layout.content block = Layout.paragraphs (within (some space) items)) := by
  refine ⟨group_eq items, nodup_spaces items, fun hn => ?_, fun hn => ⟨?_, fun space hs => ?_⟩⟩
  · rw [join, if_pos hn, List.map_map]
    rfl
  · rw [join, if_neg hn, group_eq, ← flatMap_blocks_grouped]
    rfl
  · obtain ⟨hne, item, hm, he⟩ := exists_of_mem_spaces hs
    have hn := h item hm space he
    exact ⟨hne, _, _, rfl, lines_namespaceBlock hn _, content_namespaceBlock hn _⟩

def interleaved : List (Option String × String) :=
  [(some "tree", "a \x7b\n\n  b\n\x7d"), (none, "c"), (some "", "d"), (some "geo.flat", "e"),
    (some "tree", " \nf")]

theorem join_grouped_interleaved :
    (∀ item ∈ interleaved, ∀ space, item.1 = some space → '\n' ∉ space.toList) ∧
      ∃ tree geo, join {} (interleaved.map fun item => (Json.ofSpace item.1, item.2)) =
          .ok (Layout.paragraphs [tree, "c", "d", geo]) ∧
        Layout.content tree = "a \x7b\n\n  b\n\x7d\n\n \nf" ∧ Layout.content geo = "e" := by
  have hn : ∀ item ∈ interleaved, ∀ space, item.1 = some space → '\n' ∉ space.toList := by
    simp [interleaved]
  have hs : spaces interleaved = [some "tree", none, some "geo.flat"] := by decide +kernel
  obtain ⟨-, -, -, hj⟩ := join_grouped {} hn
  obtain ⟨hj, hc⟩ := hj (by decide)
  rw [hs] at hj hc
  obtain ⟨-, tree, -, ht, -, hct⟩ := hc "tree" (by simp)
  obtain ⟨-, geo, -, hg, -, hcg⟩ := hc "geo.flat" (by simp)
  refine ⟨hn, tree, geo, ?_, hct, hcg⟩
  rw [hj, List.flatMap_cons, ht, List.flatMap_cons, List.flatMap_cons, hg]
  rfl

end Bundle

end AvroBindings
