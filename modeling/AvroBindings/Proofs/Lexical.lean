import AvroBindings.Proofs.Closed
import AvroBindings.Proofs.Code.Lexical

/-! The text of generated bindings, as a reader of its characters sees it. Brackets are balanced, in
the whole and in each of its parts; no line goes on from the one before; and there is never more than
one empty line in a row. -/

namespace AvroBindings

open Reader

namespace Bundle

variable {α : Type}

theorem ne_nil_of_addToGroup {key : Json} {item : α} {groups : List (Json × List α)}
    (h : ∀ group ∈ groups, group.2 ≠ []) : ∀ group ∈ addToGroup key item groups, group.2 ≠ [] := by
  induction groups with
  | nil => exact List.forall_mem_singleton.2 (List.cons_ne_nil _ _)
  | cons first rest ih =>
    obtain ⟨hf, hr⟩ := List.forall_mem_cons.1 h
    rw [addToGroup]
    split
    next => exact List.forall_mem_cons.2 ⟨List.append_ne_nil_of_right_ne_nil _ (by simp), hr⟩
    next => exact List.forall_mem_cons.2 ⟨hf, ih hr⟩

theorem ne_nil_of_group {items : List (Json × α)} {groups : List (Json × List α)}
    (h : group items = .ok groups) : ∀ group ∈ groups, group.2 ≠ [] := by
  refine Traversal.invariant_of_foldlM (p := fun groups => ∀ group ∈ groups, group.2 ≠ []) ?_
    (List.forall_mem_nil _) h
  intro groups item result hg hr
  simp only at hr
  split at hr <;> cases hr
  exact ne_nil_of_addToGroup hg

theorem begins_paragraphs {first : String} {rest : List String} {feeds : Nat}
    (hf : Begins feeds first) (hr : ∀ text ∈ rest, Begins 2 text) :
    Begins feeds (Layout.paragraphs (first :: rest)) := by
  intro pending
  have hs : Reads "\n\n" ⟨pending, .inside⟩ ⟨pending, .start 2⟩ := rfl
  exact reads_intercalate (hf pending) hs fun text hm => hr text hm pending

theorem begins_namespaceBlock {name : String} (hn : Wordy name) {texts : List String}
    (hne : texts ≠ []) (h : ∀ text ∈ texts, Begins 2 text) :
    Begins 2 (Layout.namespaceBlock name (Layout.paragraphs texts)) := by
  obtain ⟨first, rest, rfl⟩ := List.exists_cons_of_ne_nil hne
  obtain ⟨hf, hr⟩ := List.forall_mem_cons.1 h
  have hb := Layout.inline_braces (begins_paragraphs (hf.of_two 1) hr)
  exact fun _ => .append (.append (.append rfl (hn.inline _)) rfl) (hb _)

theorem eq_of_mem_blocks {space : Json} {texts : List String} {unit : String}
    (h : unit ∈ blocks (space, texts)) :
    unit ∈ texts ∨ unit = Layout.namespaceBlock space.text (Layout.paragraphs texts) := by
  unfold blocks at h
  split at h
  next he =>
    cases he
    exact .inl h
  next he =>
    cases he
    exact .inr (List.mem_singleton.1 h)

theorem begins_units {options : Options} {texts : List (Json × String)}
    {groups : List (Json × List String)} (hg : group texts = .ok groups) (hh : Holds groups texts)
    (h : ∀ item ∈ texts, Wordy item.1.text ∧ Begins 2 item.2) :
    ∀ unit ∈ units options texts groups, Begins 2 unit := by
  unfold units
  split
  next => exact List.forall_mem_map.2 fun item hm => (h item hm).2
  next =>
    intro unit hu
    obtain ⟨⟨space, own⟩, hm, hu⟩ := List.mem_flatMap.1 hu
    have he : ∀ text ∈ own, Wordy space.text ∧ Begins 2 text :=
      fun text ht => h (space, text) ((hh.mem space text).1 ⟨own, hm, ht⟩)
    have hne : own ≠ [] := ne_nil_of_group hg _ hm
    obtain hu | hu := eq_of_mem_blocks hu
    · exact (he unit hu).2
    · obtain ⟨first, hf⟩ := List.exists_mem_of_ne_nil own hne
      rw [hu]
      exact begins_namespaceBlock (he first hf).1 hne fun text ht => (he text ht).2

end Bundle

/-- What a reader of code can rely on. -/
structure Layout.Orderly (text : String) : Prop where
  balanced : Brackets.Balanced text.toList
  lines : ∀ line ∈ Layout.lines text.toList, ¬Layout.GoesOn line
  feeds : ¬['\n', '\n', '\n'] <:+: text.toList
  last : text.toList.getLast? ≠ some '\n'

theorem Layout.orderly_of_begins {text : String} (h : Begins 0 text) : Orderly text := by
  obtain ⟨hd, hp⟩ := foldlM_parts (h [])
  obtain ⟨first, rest, hl, hr, hf⟩ := Place.lines_of_foldlM hp
  refine ⟨hd, ?_, Place.not_infix_of_foldlM hp, Place.getLast?_of_foldlM hp⟩
  rw [hl]
  exact List.forall_mem_cons.2 ⟨hf.resolve_left (by simp), hr⟩

theorem Layout.orderly_empty : Orderly "" where
  balanced := rfl
  lines := by
    simp [Layout.lines, GoesOn, firstMark]
  feeds := by simp
  last := by simp

namespace Schema

variable {document : Schema} {options : Options} {inventory : Inventory}

theorem Plain.worded {definition : Definition} (h : definition.schema.Plain) :
    definition.Worded := by
  cases definition with
  | enum own => exact h
  | record own => exact h.1

theorem Plain.spelled {definition : Definition} (h : definition.schema.Plain) (options : Options) :
    definition.Spelled .strict options := by
  cases definition with
  | enum own => trivial
  | record own => exact fun name hn => h.1.word_qualifiedDeclarationName h.2.1 hn

theorem wordedBy_record (options : Options) (h : document.WellFormed)
    (hs : ∀ node ∈ document.positions, node.Spelled)
    (ho : inventory.Of document.augmented) {own : Record} (hm : own ∈ inventory.records) :
    own.WordedBy .strict (document.context options inventory) := by
  have hp := ho.mem_records.1 hm
  obtain ⟨ha, hn, hl⟩ := plain_augmented h hs _ hp
  have ht : ∀ type ∈ own.fields.types,
      type.WordedBy .strict (document.context options inventory) := by
    intro type ht node hn definition hd
    have hn : node ∈ document.augmented.positions :=
      positions_trans hp (positions_of_child ht (constituents_subset_positions type hn))
    have hw := plain_augmented h hs _ (mem_defined.1 (mem_defined_of_leads ho hn hd))
    exact ⟨hw.worded, hw.spelled options⟩
  exact {
    worded := ⟨ha, fun field hm => word_of_isIdentifier (hl field hm),
      fun type hm => (ht type hm).worded⟩
    name := ⟨ha.name, hn⟩
    interface := fun name hi => ha.word_interfaceName hn hi
    labels := hl
    types := ht }

theorem begins_of_declared (h : document.WellFormed)
    (hs : ∀ node ∈ document.positions, node.Spelled) (ho : inventory.Of document.augmented)
    {declarations : List (Json × Declaration)}
    (hd : inventory.declared (document.context options inventory) = .ok declarations) {space : Json}
    {own : Declaration} (hm : (space, own) ∈ declarations) :
    Wordy space.text ∧ Begins 2 own.render := by
  obtain ⟨enum, hi, he, rfl⟩ | ⟨record, hi, he, rfl⟩ | ⟨record, hi, he, rfl⟩ :=
    (Inventory.mem_declared hd).1 hm
  · have hp : (Definition.enum enum).Worded := plain_augmented h hs _ (ho.mem_enums.1 hi)
    exact ⟨hp.1.space, Declaration.begins (Declaration.worded_ofEnum (s := .loose) hp he)⟩
  · have hr := (wordedBy_record options h hs ho hi).worded
    exact ⟨hr.attributes.space, Declaration.begins (Declaration.worded_ofRecord (s := .loose) hr he)⟩
  · have hr := (wordedBy_record options h hs ho (Inventory.mem_classes.1 hi).2).worded
    exact ⟨hr.attributes.space, Declaration.begins (Declaration.worded_classOfRecord hr.loose he)⟩

/-- Where the names in a well-formed document are identifiers, the bindings of the document balance
their brackets, as a whole and in each declaration or block of a namespace that they consist of. No
line begins with a bracket that goes on from the line before, no two lines in a row are empty, and
the last line is not. -/
theorem generate_orderly (h : document.WellFormed) (hs : ∀ node ∈ document.positions, node.Spelled)
    {text : String} (hg : (generate options document).result = .ok text) :
    Layout.Orderly text ∧ ∃ augmented inventory declarations groups,
      (document.augment {}).2.result = .ok augmented ∧
      Inventory.ofSchema augmented = .ok inventory ∧
      (inventory.declarations ⟨options, (document.augment {}).1, inventory.table⟩).result =
        .ok declarations ∧
      Bundle.group (declarations.map fun (space, own) => (space, own.render)) = .ok groups ∧
      text = Layout.paragraphs (Bundle.units options
        (declarations.map fun (space, own) => (space, own.render)) groups) ∧
      ∀ unit ∈ Bundle.units options
        (declarations.map fun (space, own) => (space, own.render)) groups,
        Brackets.Balanced unit.toList := by
  have hw := wellFormed_augmented h
  obtain ⟨hu, inventory, hi, ho, declarations, hd, hj⟩ := exists_of_generate h hg
  obtain ⟨groups, hh, he, hp⟩ := Bundle.exists_join options (isSpace_of_mem_rendered h ho hd)
  rw [he] at hj
  cases hj
  have hb := @Bundle.begins_units options _ _ hp hh <| List.forall_mem_map.2
    fun entry hm => begins_of_declared h hs ho hd hm
  refine ⟨?_, _, inventory, declarations, groups, augment_of_unambiguous h hu, hi, ?_, hp, rfl,
    fun unit hm => (foldlM_parts (hb unit hm [])).1⟩
  · cases hc : Bundle.units options
      (declarations.map fun (space, own) => (space, own.render)) groups with
    | nil => exact Layout.orderly_empty
    | cons first rest =>
      rw [hc] at hb
      obtain ⟨hf, hr⟩ := List.forall_mem_cons.1 hb
      exact Layout.orderly_of_begins (Bundle.begins_paragraphs (hf.of_two 0) hr)
  · rw [augment_fst h]
    exact (Inventory.declarations_result ho hw _).trans hd

theorem spelled_sample : ∀ node ∈ sample.positions, node.Spelled := by
  simp only [sample, positions_eq, children_record, children_enum, children_union, children_array,
    children_map, children_primitive, children_reference, Record.fields_mk, Fields.types,
    Field.type?, Option.toList, List.filterMap_cons, List.filterMap_nil, List.flatMap_cons,
    List.flatMap_nil, List.append_nil, List.cons_append, List.nil_append, List.forall_mem_cons]
  refine ⟨⟨⟨by decide, ?_⟩, by decide⟩, ⟨⟨by decide, ?_⟩, by decide⟩, ?_⟩
  · rintro space h
    cases h
    exact .inr (by decide)
  · rintro space h
    cases h
  · simp [Spelled]

theorem generate_orderly_sample :
    ∃ text, (generate ⟨false, false, .enum, true⟩ sample).result = .ok text ∧
      Layout.Orderly text := by
  have hs : (generate ⟨false, false, .enum, true⟩ sample).result.isOk := by decide +kernel
  cases hg : (generate ⟨false, false, .enum, true⟩ sample).result with
  | error e =>
    rw [hg] at hs
    cases hs
  | ok text => exact ⟨text, rfl, (generate_orderly wellFormed_sample spelled_sample hg).1⟩

end Schema

end AvroBindings
