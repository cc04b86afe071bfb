import AvroBindings.Proofs.Schema.Augmented
import Mathlib.Data.List.Nodup

/-! The definitions of an augmented document, sorted, and their table. Sorting by names that are texts
never fails, and gives the same for every order of the items where no name occurs twice. The table
holds exactly the full names of the definitions, which are exactly the names that the document
registers. -/

namespace AvroBindings

section Sorting

theorem unordered?_str (names : List String) : unordered? (names.map .str) = none := by
  induction names with
  | nil => rfl
  | cons name rest ih =>
    rw [List.map_cons, unordered?, ih]
    have hf : (rest.map Json.str).find? (fun other => ((Json.str name).compare? other).isNone) =
        none := by
      rw [List.find?_eq_none]
      intro other ho
      obtain ⟨text, -, rfl⟩ := List.mem_map.1 ho
      simp
    rw [hf]

variable {α β : Type} {text : α → String} {items : List α}

def sortedBy (text : α → String) (items : List α) : List α :=
  items.mergeSort fun left right => (compare (text left) (text right)).isLE

theorem perm_sortedBy (text : α → String) (items : List α) : (sortedBy text items).Perm items :=
  List.mergeSort_perm items _

theorem pairwise_sortedBy (text : α → String) (items : List α) :
    (sortedBy text items).Pairwise fun left right =>
      (compare (text left) (text right)).isLE = true := by
  apply List.pairwise_mergeSort
  · exact fun a b c => Std.TransCmp.isLE_trans
  · intro a b
    rw [Std.OrientedOrd.eq_swap (a := text b)]
    cases compare (text a) (text b) <;> rfl

theorem sortedBy_perm {others : List α} (h : (items.map text).Nodup) (hp : others.Perm items) :
    sortedBy text others = sortedBy text items := by
  have hs := (perm_sortedBy text others).trans (hp.trans (perm_sortedBy text items).symm)
  refine hs.eq_of_pairwise (fun left right hl hr hle hge => ?_) (pairwise_sortedBy text others)
    (pairwise_sortedBy text items)
  have hl : left ∈ items := hp.subset ((perm_sortedBy text others).subset hl)
  have hr : right ∈ items := (perm_sortedBy text items).subset hr
  exact List.inj_on_of_nodup_map h hl hr
    (Std.LawfulEqCmp.eq_of_compare (Std.OrientedCmp.isLE_antisymm hle hge))

/-- Items whose names are texts are sorted by these. -/
theorem sortByName_eq {name : α → Except Error Json}
    (h : ∀ item ∈ items, name item = .ok (.str (text item))) :
    sortByName name items = .ok (sortedBy text items) := by
  have hm : (items.mapM fun item => return (← name item, item) : Except Error (List (Json × α))) =
      .ok (items.map fun item => (Json.str (text item), item)) := by
    induction items with
    | nil => rfl
    | cons item rest ih =>
      rw [List.mapM_cons, ih fun other ho => h other (List.mem_cons_of_mem item ho),
        h item List.mem_cons_self]
      rfl
  have hn : (items.map fun item => (Json.str (text item), item)).map Prod.fst =
      (items.map text).map Json.str := by
    simp
  have hs : ((items.map fun item => (Json.str (text item), item)).mergeSort
      fun left right => (left.1.compare? right.1).all (·.isLE)) =
      (sortedBy text items).map fun item => (Json.str (text item), item) :=
    (List.map_mergeSort fun _ _ _ _ => by simp).symm
  unfold sortByName
  rw [hm, Traversal.ok_bind, hn, unordered?_str, hs]
  simp [pure, Except.pure, Function.comp_def]

theorem sortByName_map {name : α → Except Error Json} {own : β → Except Error Json} (f : α → β)
    (hf : ∀ item, own (f item) = name item) (items : List α) :
    sortByName own (items.map f) = (sortByName name items).map (List.map f) := by
  have hm : ((items.map f).mapM fun item => return (← own item, item) :
      Except Error (List (Json × β))) =
        (items.mapM fun item => return (← name item, item)).map (List.map (Prod.map id f)) := by
    induction items with
    | nil => rfl
    | cons item rest ih =>
      rw [List.map_cons, List.mapM_cons, List.mapM_cons, ih, hf]
      cases name item with
      | error e => rfl
      | ok text => cases rest.mapM fun item => return (← name item, item) <;> rfl
  unfold sortByName
  rw [hm]
  cases items.mapM fun item => return (← name item, item) with
  | error e => rfl
  | ok named =>
    have hn : (named.map (Prod.map id f)).map Prod.fst = named.map Prod.fst := by
      rw [List.map_map]
      rfl
    have hs := List.map_mergeSort (f := Prod.map id f) (l := named)
      (r := fun left right => (left.1.compare? right.1).all (·.isLE))
      (s := fun left right => (left.1.compare? right.1).all (·.isLE)) fun _ _ _ _ => rfl
    simp only [Traversal.ok_bind, Except.map, hn]
    cases unordered? (named.map Prod.fst) with
    | some clash => rfl
    | none => simp [← hs, pure, Except.pure, Function.comp_def]

theorem exists_sortByName {name : α → Except Error Json}
    (h : ∀ item ∈ items, ∃ text, name item = .ok (.str text)) :
    ∃ sorted, sortByName name items = .ok sorted ∧ sorted.Perm items := by
  have hn : ∀ item ∈ items, name item = .ok (.str ((name item).toOption.elim "" Json.text)) := by
    intro item hm
    obtain ⟨text, ht⟩ := h item hm
    rw [ht]
    rfl
  exact ⟨_, sortByName_eq hn, perm_sortedBy _ items⟩

end Sorting

theorem Json.same_str (left right : String) :
    (Json.str left).same (.str right) = (left == right) := by
  simp [Json.same]

namespace Table

theorem mem_of_find? {table : Table} {name : String} {definition : Definition}
    (h : table.find? (.str name) = some definition) :
    ∃ key, (key, definition) ∈ table ∧ key.same (.str name) := by
  induction table with
  | nil => cases h
  | cons entry rest ih =>
    obtain ⟨key, other⟩ := entry
    rw [find?] at h
    split at h
    next hs => cases h; exact ⟨key, List.mem_cons_self, hs⟩
    next =>
      obtain ⟨found, hm, hs⟩ := ih h
      exact ⟨found, List.mem_cons_of_mem _ hm, hs⟩

/-- Every entry of the table is a definition under its full name, and every definition has an
entry under its full name, its own or that of another definition. -/
structure Covers (table : Table) (definitions : List Definition) : Prop where
  sound : ∀ key definition, (key, definition) ∈ table →
    definition ∈ definitions ∧ key = .str definition.attributes.qualifiedText
  complete : ∀ definition ∈ definitions,
    ∃ entry ∈ table, entry.1 = .str definition.attributes.qualifiedText

theorem mem_insert {table : Table} {name : String} {definition : Definition}
    {entry : Json × Definition} (h : entry ∈ table.insert (.str name) definition)
    (hk : ∀ key ∈ table.map Prod.fst, ∃ text, key = Json.str text) :
    entry = (.str name, definition) ∨ entry ∈ table := by
  induction table with
  | nil => exact .inl (List.mem_singleton.1 h)
  | cons first rest ih =>
    obtain ⟨key, other⟩ := first
    obtain ⟨text, rfl⟩ := hk key (by simp)
    rw [insert] at h
    split at h
    next hs =>
      rw [Json.same_str, beq_iff_eq] at hs
      subst hs
      exact (List.mem_cons.1 h).imp id (List.mem_cons_of_mem _)
    next =>
      obtain rfl | h := List.mem_cons.1 h
      · exact .inr List.mem_cons_self
      · exact (ih h fun key hm => hk key (List.mem_cons_of_mem _ hm)).imp id
          (List.mem_cons_of_mem _)

theorem keys_insert {table : Table} {name : String} {definition : Definition}
    (hk : ∀ key ∈ table.map Prod.fst, ∃ text, key = Json.str text) (key : Json) :
    key ∈ (table.insert (.str name) definition).map Prod.fst ↔
      key = .str name ∨ key ∈ table.map Prod.fst := by
  induction table with
  | nil => simp [insert]
  | cons first rest ih =>
    obtain ⟨own, other⟩ := first
    obtain ⟨text, rfl⟩ := hk own (by simp)
    have hr := ih fun key hm => hk key (List.mem_cons_of_mem _ hm)
    rw [insert]
    split
    next hs =>
      rw [Json.same_str, beq_iff_eq] at hs
      subst hs
      simp
    next =>
      rw [List.map_cons, List.mem_cons, hr, List.map_cons, List.mem_cons]
      tauto

theorem Covers.keys {table : Table} {definitions : List Definition}
    (h : table.Covers definitions) {key : Json} (hk : key ∈ table.map Prod.fst) :
    ∃ text, key = .str text := by
  obtain ⟨⟨key, definition⟩, hm, rfl⟩ := List.mem_map.1 hk
  exact ⟨_, (h.sound key definition hm).2⟩

theorem Covers.insert {table : Table} {definitions : List Definition}
    (h : table.Covers definitions) (definition : Definition) :
    (table.insert (.str definition.attributes.qualifiedText) definition).Covers
      (definitions ++ [definition]) where
  sound key other hm := by
    obtain he | hm := mem_insert hm fun key => h.keys
    · cases he
      exact ⟨by simp, rfl⟩
    · obtain ⟨ho, hk⟩ := h.sound key other hm
      exact ⟨List.mem_append_left _ ho, hk⟩
  complete other ho := by
    have hk : Json.str other.attributes.qualifiedText ∈
        (table.insert (.str definition.attributes.qualifiedText) definition).map Prod.fst := by
      rw [keys_insert fun key => h.keys]
      obtain ho | ho := List.mem_append.1 ho
      · obtain ⟨entry, hm, he⟩ := h.complete other ho
        exact .inr (he ▸ List.mem_map_of_mem hm)
      · exact .inl (by rw [List.mem_singleton.1 ho])
    obtain ⟨entry, hm, he⟩ := List.mem_map.1 hk
    exact ⟨entry, hm, he⟩

theorem exists_ofDefinitions {definitions : List Definition}
    (h : ∀ definition ∈ definitions, definition.attributes.Named) :
    ∃ table, ofDefinitions definitions = .ok table ∧ table.Covers definitions := by
  have hg : ∀ (table : Table) (seen : List Definition), table.Covers seen →
      ∃ result, definitions.foldlM (fun table definition => do
        let name ← definition.attributes.qualifiedName
        if name.isKey then return table.insert name definition
        else throw (Error.notHashable name)) table = .ok result ∧
          Covers result (seen ++ definitions) := by
    induction definitions with
    | nil => exact fun table seen ht => ⟨table, rfl, by simpa using ht⟩
    | cons definition rest ih =>
      intro table seen ht
      obtain ⟨result, hr, hc⟩ := ih (fun other ho => h other (List.mem_cons_of_mem _ ho)) _ _
        (ht.insert definition)
      refine ⟨result, ?_, by simpa using hc⟩
      rw [List.foldlM_cons, (h definition List.mem_cons_self).qualifiedName]
      exact hr
  obtain ⟨result, hr, hc⟩ := hg [] [] ⟨by simp, by simp⟩
  exact ⟨result, hr, by simpa using hc⟩

theorem Covers.congr {table : Table} {definitions others : List Definition}
    (h : table.Covers definitions) (he : ∀ definition, definition ∈ definitions ↔
      definition ∈ others) : table.Covers others where
  sound key definition hm := by
    obtain ⟨hd, hk⟩ := h.sound key definition hm
    exact ⟨(he definition).1 hd, hk⟩
  complete definition hm := h.complete definition ((he definition).2 hm)

theorem exists_find? {table : Table} {name : String} (h : Json.str name ∈ table.map Prod.fst) :
    ∃ definition, table.find? (.str name) = some definition := by
  induction table with
  | nil => cases h
  | cons entry rest ih =>
    obtain ⟨key, definition⟩ := entry
    rw [find?]
    split
    next => exact ⟨definition, rfl⟩
    next hs =>
      obtain hk | hm := List.mem_cons.1 h
      · obtain rfl : Json.str name = key := hk
        exact absurd ((Json.same_str name name).trans (beq_self_eq_true name)) hs
      · exact ih hm

theorem Covers.of_find? {table : Table} {definitions : List Definition}
    (h : table.Covers definitions) {name : String} {definition : Definition}
    (hf : table.find? (.str name) = some definition) :
    definition ∈ definitions ∧ definition.attributes.qualifiedText = name := by
  obtain ⟨key, hm, hs⟩ := mem_of_find? hf
  obtain ⟨hd, rfl⟩ := h.sound key definition hm
  rw [Json.same_str, beq_iff_eq] at hs
  exact ⟨hd, hs⟩

theorem Covers.mem_keys {table : Table} {definitions : List Definition}
    (h : table.Covers definitions) {key : Json} :
    key ∈ table.map Prod.fst ↔
      ∃ definition ∈ definitions, key = .str definition.attributes.qualifiedText := by
  constructor
  · intro hk
    obtain ⟨⟨key, definition⟩, hm, rfl⟩ := List.mem_map.1 hk
    exact ⟨definition, h.sound key definition hm⟩
  · rintro ⟨definition, hd, rfl⟩
    obtain ⟨entry, hm, he⟩ := h.complete definition hd
    exact he ▸ List.mem_map_of_mem hm

end Table

/-- The definitions at the type positions of a schema, sorted, with a table of them. -/
structure Inventory.Of (inventory : Inventory) (schema : Schema) : Prop where
  enums : inventory.enums.Perm (schema.defined.filterMap Definition.enum?)
  records : inventory.records.Perm (schema.defined.filterMap Definition.record?)
  table : inventory.table.Covers schema.defined

theorem Schema.mem_defined {schema : Schema} {definition : Definition} :
    definition ∈ schema.defined ↔ definition.schema ∈ schema.positions := by
  unfold defined
  rw [List.mem_filterMap]
  constructor
  · rintro ⟨type, ht, hd⟩
    cases type <;> cases hd <;> exact ht
  · intro h
    refine ⟨_, h, ?_⟩
    cases definition <;> rfl

theorem Schema.mem_enums {schema : Schema} {definition : Enum} :
    definition ∈ schema.defined.filterMap Definition.enum? ↔
      enum definition ∈ schema.positions := by
  rw [List.mem_filterMap]
  constructor
  · rintro ⟨own, hm, he⟩
    cases own <;> cases he
    exact mem_defined.1 hm
  · exact fun h => ⟨.enum definition, mem_defined.2 h, rfl⟩

theorem Schema.mem_records {schema : Schema} {definition : Record} :
    definition ∈ schema.defined.filterMap Definition.record? ↔
      record definition ∈ schema.positions := by
  rw [List.mem_filterMap]
  constructor
  · rintro ⟨own, hm, he⟩
    cases own <;> cases he
    exact mem_defined.1 hm
  · exact fun h => ⟨.record definition, mem_defined.2 h, rfl⟩

theorem Inventory.Of.mem_enums {inventory : Inventory} {schema : Schema}
    (h : inventory.Of schema) {definition : Enum} :
    definition ∈ inventory.enums ↔ .enum definition ∈ schema.positions :=
  h.enums.mem_iff.trans Schema.mem_enums

theorem Inventory.Of.mem_records {inventory : Inventory} {schema : Schema}
    (h : inventory.Of schema) {definition : Record} :
    definition ∈ inventory.records ↔ .record definition ∈ schema.positions :=
  h.records.mem_iff.trans Schema.mem_records

theorem Schema.AllSettled.of_mem_defined {schema : Schema} (h : schema.AllSettled)
    {definition : Definition} (hm : definition ∈ schema.defined) :
    definition.attributes.Settled := by
  obtain ⟨type, ht, hd⟩ := List.mem_filterMap.1 hm
  exact h type ht definition hd

/-- The definitions of a well-formed schema with settled names are sorted and put into a table
without failure. -/
theorem Inventory.exists_ofSchema {schema : Schema} (hw : schema.WellFormed)
    (hs : schema.AllSettled) :
    ∃ inventory, Inventory.ofSchema schema = .ok inventory ∧ inventory.Of schema := by
  have hn : ∀ definition : Definition, definition.schema ∈ schema.positions →
      definition.attributes.Named :=
    fun definition hm => (hs.of_mem_defined (Schema.mem_defined.2 hm)).named
  have he : ∃ sorted, sortByName (fun definition : Enum => definition.attributes.name)
      (schema.defined.filterMap Definition.enum?) = .ok sorted ∧ sorted.Perm _ :=
    exists_sortByName fun definition hm => (hn (.enum definition) (Schema.mem_enums.1 hm)).name
  have hr : ∃ sorted, sortByName (fun definition : Record => definition.attributes.name)
      (schema.defined.filterMap Definition.record?) = .ok sorted ∧ sorted.Perm _ :=
    exists_sortByName fun definition hm => (hn (.record definition) (Schema.mem_records.1 hm)).name
  obtain ⟨enums, he, hep⟩ := he
  obtain ⟨records, hr, hrp⟩ := hr
  have hm : ∀ definition, definition ∈ enums.map Definition.enum ++ records.map .record ↔
      definition ∈ schema.defined := by
    intro definition
    rw [Schema.mem_defined]
    cases definition with
    | enum own =>
      have := hep.mem_iff.trans (@Schema.mem_enums schema own)
      simpa [Definition.schema] using this
    | record own =>
      have := hrp.mem_iff.trans (@Schema.mem_records schema own)
      simpa [Definition.schema] using this
  obtain ⟨table, ht, hc⟩ := Table.exists_ofDefinitions fun definition h =>
    (hs.of_mem_defined ((hm definition).1 h)).named
  refine ⟨⟨enums, records, table⟩, ?_, hep, hrp, hc.congr hm⟩
  unfold Inventory.ofSchema
  rw [Schema.definitions_eq hw]
  simp only [bind, Except.bind]
  rw [he]
  simp only
  rw [hr]
  simp only
  rw [ht]
  rfl

end AvroBindings
