import AvroBindings.Proofs.Inventory

/-! Registration, collection and table agree. Below a well-formed document that can be augmented,
the collected definitions are exactly those at its type positions, and their full names are both
the registered names and the keys of the table. -/

namespace AvroBindings

namespace Schema

theorem at?_augmented (document : Schema) (path : List Nat) :
    ∃ space : Json, document.augmented.at? path = (document.at? path).map fun type =>
      (type.named space).linked document.registry.resolution := by
  obtain ⟨space, hs⟩ := at?_named .null document path
  refine ⟨space, ?_⟩
  rw [augmented, at?_linked, hs, Option.map_map]
  rfl

/-- Augmentation leaves every record, every enum and every reference where it was, a reference as its
resolution, and makes none. -/
theorem kinds_at?_augmented (document : Schema) (path : List Nat) :
    ((∃ record, document.augmented.at? path = some (.record record)) ↔
      ∃ record, document.at? path = some (.record record)) ∧
    ((∃ enum, document.augmented.at? path = some (.enum enum)) ↔
      ∃ enum, document.at? path = some (.enum enum)) ∧
    ∀ full, document.augmented.at? path = some (.reference full) ↔
      ∃ name, document.at? path = some (.reference name) ∧
        document.registry.resolution name = full := by
  obtain ⟨space, hs⟩ := at?_augmented document path
  rw [hs]
  cases document.at? path with
  | none => simp
  | some type =>
    cases type with
    | array before items after => cases items <;> simp [named, linked]
    | map before values after => cases values <;> simp [named, linked]
    | _ => simp [named, linked]

theorem lists_defined (schema : Schema) : schema.Lists Definition.schema schema.defined := by
  apply lists_filterMap
  intro type definition
  cases type <;> cases definition <;> simp [definition?, Definition.schema]

theorem lists_records (schema : Schema) :
    schema.Lists record (schema.defined.filterMap Definition.record?) := by
  unfold defined
  rw [List.filterMap_filterMap]
  apply lists_filterMap
  intro type definition
  cases type <;> simp [definition?, Definition.record?]

theorem lists_enums (schema : Schema) :
    schema.Lists enum (schema.defined.filterMap Definition.enum?) := by
  unfold defined
  rw [List.filterMap_filterMap]
  apply lists_filterMap
  intro type definition
  cases type <;> simp [definition?, Definition.enum?]

theorem contains_registry {document : Schema} (h : document.WellFormed) {key : Json} :
    document.registry.contains key = .ok true ↔
      ∃ definition ∈ document.augmented.defined,
        definition.attributes.qualifiedName = .ok key := by
  have hn : ∀ definition ∈ document.augmented.defined,
      definition.attributes.qualifiedName = .ok (.str definition.attributes.qualifiedText) :=
    fun definition hm => ((allSettled_augmented h).of_mem_defined hm).named.qualifiedName
  have ht : ∀ name, name ∈ document.registry.names ↔
      ∃ definition ∈ document.augmented.defined, definition.attributes.qualifiedText = name := by
    intro name
    rw [mem_registry]
    exact List.mem_map
  constructor
  · intro hc
    cases key with
    | str name =>
      have hm : name ∈ document.registry.names := by
        simpa [Registry.contains] using hc
      obtain ⟨definition, hd, rfl⟩ := (ht name).1 hm
      exact ⟨definition, hd, hn definition hd⟩
    | _ => simp [Registry.contains, others_registry, Json.isKey] at hc
  · rintro ⟨definition, hd, hq⟩
    rw [hn definition hd] at hq
    cases hq
    have hm := (ht _).2 ⟨definition, hd, rfl⟩
    simpa [Registry.contains] using hm

theorem contains_of_get {document : Schema} {reference full : Json}
    (h : document.registry.get reference = .ok (some full)) :
    document.registry.contains full = .ok true := by
  cases reference with
  | str name =>
    rw [Registry.get] at h
    cases hf : document.registry.find name with
    | error e => rw [hf] at h; cases h
    | ok found =>
      rw [hf] at h
      cases found with
      | none => cases h
      | some own =>
        cases h
        simpa [Registry.contains] using Registry.mem_of_find hf
  | _ =>
    simp [Registry.get, Registry.contains, others_registry, Json.isKey, bind, Except.bind, pure,
      Except.pure] at h

/-- On a well-formed document that can be augmented, the definitions collected afterwards are those
at its type positions, each record in the one list and each enum in the other, in the order of a
depth-first walk. What is registered, what is collected and what the table holds are the same full
names, and the table answers every name that the registry can give. -/
theorem collection_agrees {document augmented : Schema} (h : document.WellFormed)
    (ha : (document.augment {}).2.result = .ok augmented) :
    ∃ definitions inventory,
      augmented.definitions = .ok definitions ∧
      Inventory.ofSchema augmented = .ok inventory ∧
      augmented.Lists Definition.schema definitions ∧
      augmented.Lists record (definitions.filterMap Definition.record?) ∧
      augmented.Lists enum (definitions.filterMap Definition.enum?) ∧
      (∀ path, (∃ record, augmented.at? path = some (.record record)) ↔
        ∃ record, document.at? path = some (.record record)) ∧
      (∀ path, (∃ enum, augmented.at? path = some (.enum enum)) ↔
        ∃ enum, document.at? path = some (.enum enum)) ∧
      inventory.records.Perm (definitions.filterMap Definition.record?) ∧
      inventory.enums.Perm (definitions.filterMap Definition.enum?) ∧
      (∀ key, (document.augment {}).1.contains key = .ok true ↔
        ∃ definition ∈ definitions, definition.attributes.qualifiedName = .ok key) ∧
      (∀ key, (document.augment {}).1.contains key = .ok true ↔
        key ∈ inventory.table.map Prod.fst) ∧
      ∀ reference full, (document.augment {}).1.get reference = .ok (some full) →
        ∃ definition ∈ definitions, inventory.table.find? full = some definition ∧
          definition.attributes.qualifiedName = .ok full := by
  rw [augment_of_unambiguous h (unambiguous_of_augment h ha)] at ha
  cases ha
  rw [augment_fst h]
  have hw := wellFormed_augmented h
  obtain ⟨inventory, hi, ho⟩ := Inventory.exists_ofSchema hw (allSettled_augmented h)
  have hq : ∀ definition ∈ document.augmented.defined,
      definition.attributes.qualifiedName = .ok (.str definition.attributes.qualifiedText) :=
    fun definition hm => ((allSettled_augmented h).of_mem_defined hm).named.qualifiedName
  have hk : ∀ key, document.registry.contains key = .ok true ↔
      key ∈ inventory.table.map Prod.fst := by
    intro key
    rw [contains_registry h, ho.table.mem_keys]
    refine exists_congr fun definition => and_congr_right fun hm => ?_
    rw [hq definition hm, Except.ok.injEq, eq_comm]
  refine ⟨_, inventory, definitions_eq hw, hi, lists_defined _, lists_records _, lists_enums _,
    fun path => (kinds_at?_augmented document path).1,
    fun path => (kinds_at?_augmented document path).2.1, ho.records, ho.enums,
    fun key => contains_registry h, hk, ?_⟩
  intro reference full hg
  obtain ⟨definition, hd, hn⟩ := (contains_registry h).1 (contains_of_get hg)
  rw [hq definition hd] at hn
  cases hn
  obtain ⟨found, hf⟩ := Table.exists_find? ((hk _).1 (contains_of_get hg))
  obtain ⟨hm, hn⟩ := ho.table.of_find? hf
  exact ⟨found, hm, hf, by rw [hq found hm, hn]⟩

theorem collection_agrees_sample :
    ∃ augmented, (sample.augment {}).2.result = .ok augmented ∧ ∃ definitions inventory,
      augmented.definitions = .ok definitions ∧ Inventory.ofSchema augmented = .ok inventory ∧
      augmented.Lists record (definitions.filterMap Definition.record?) ∧
      augmented.Lists enum (definitions.filterMap Definition.enum?) ∧
      ∀ key, (sample.augment {}).1.contains key = .ok true ↔
        key ∈ inventory.table.map Prod.fst := by
  have hs : (sample.augment {}).2.result.isOk := by decide +kernel
  cases ha : (sample.augment {}).2.result with
  | error e =>
    rw [ha] at hs
    cases hs
  | ok augmented =>
    obtain ⟨definitions, inventory, hd, hi, -, hr, he, -, -, -, -, -, hk, -⟩ :=
      collection_agrees wellFormed_sample ha
    exact ⟨augmented, rfl, definitions, inventory, hd, hi, hr, he, hk⟩

end Schema

end AvroBindings
