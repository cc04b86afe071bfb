import AvroBindings.Proofs.Reaugmentation
import AvroBindings.Proofs.Schema.Outline
import AvroBindings.Proofs.Schema.Skeleton.Reading

/-! Schemas that are read back from their values, and what augmenting a document leaves alone:
everything but names, namespaces and references. What is read from a value without repeated keys
stays such a schema when its definitions are named and its references replaced: neither makes a node
look like one of another shape. -/

namespace AvroBindings

namespace Attributes

variable {key other : String} {before after attributes : Attributes} {value : Json}

theorem get?_insert (h : key ≠ other) (before : Attributes) (value : Json) (after : Attributes) :
    get? other (before ++ (key, value) :: after) = get? other (before ++ after) := by
  induction before with
  | nil => exact if_neg h
  | cons entry rest ih =>
    rw [List.cons_append, List.cons_append, get?, get?, ih]

theorem get?_eq_none_iff : attributes.get? key = none ↔ key ∉ attributes.map Prod.fst := by
  induction attributes with
  | nil => simp [get?]
  | cons entry rest ih =>
    rw [get?, List.map_cons, List.mem_cons, not_or, ← ih]
    split
    next he => simp [he]
    next he => simp [Ne.symm he]

theorem mem_of_get? (h : attributes.get? key = some value) : (key, value) ∈ attributes := by
  induction attributes with
  | nil => cases h
  | cons entry rest ih =>
    rw [get?] at h
    split at h
    next he =>
      cases h
      rw [← he]
      exact List.mem_cons_self
    next => exact List.mem_cons_of_mem entry (ih h)

theorem get?_append_eq_none_iff : get? key (before ++ after) = none ↔
    before.get? key = none ∧ after.get? key = none := by
  simp [get?_eq_none_iff]

end Attributes

def Field.Genuine : Field → Prop
  | .mk before _ _ => before.get? "type" = none
  | .malformed _ => True

structure Record.Genuine (definition : Record) : Prop where
  shape : Shape.ofAttributes? definition.attributes = some .record
  others : definition.attributes.get? "fields" = none
  absent : definition.fields = .absent → definition = .mk definition.attributes .absent []
  fields : ∀ field ∈ definition.fieldList, field.Genuine

/-- The attributes of a node tell its shape, and what stands among them is the attribute that it is
read from. -/
def Schema.Genuine : Schema → Prop
  | primitive name wrapper =>
    ∀ attributes ∈ wrapper, Shape.ofAttributes? attributes = some (.primitive name)
  | reference name => Primitive.ofName? name = none
  | union _ => True
  | enum definition => Shape.ofAttributes? definition.attributes = some .enum
  | record definition => definition.Genuine
  | array before _ after =>
    Shape.ofAttributes? (before ++ after) = some .array ∧ before.get? "items" = none
  | map before _ after =>
    Shape.ofAttributes? (before ++ after) = some .map ∧ before.get? "values" = none
  | unknown value => ofJson value = unknown value

theorem Schema.atKey_insert {key : String} {before : Attributes} (h : before.get? key = none)
    (value : Json) (after : Attributes) :
    atKey key (before ++ (key, value) :: after) = (before, some (ofJson value), after) := by
  induction before with
  | nil => exact if_pos rfl
  | cons entry rest ih =>
    obtain ⟨name, own⟩ := entry
    rw [Attributes.get?] at h
    split at h
    next => cases h
    next hn => rw [List.cons_append, atKey, if_neg hn, ih h]

theorem Record.ofAttributes_insert {before : Attributes} (h : before.get? "fields" = none)
    (value : Json) (after : Attributes) :
    ofAttributes (before ++ ("fields", value) :: after) = .mk before (Fields.ofJson value) after := by
  induction before with
  | nil => exact if_pos rfl
  | cons entry rest ih =>
    obtain ⟨name, own⟩ := entry
    rw [Attributes.get?] at h
    split at h
    next => cases h
    next hn => rw [List.cons_append, ofAttributes, if_neg hn, ih h]

theorem Record.ofAttributes_of_none {attributes : Attributes}
    (h : attributes.get? "fields" = none) : ofAttributes attributes = .mk attributes .absent [] := by
  induction attributes with
  | nil => rfl
  | cons entry rest ih =>
    obtain ⟨name, own⟩ := entry
    rw [Attributes.get?] at h
    split at h
    next => cases h
    next hn => rw [ofAttributes, if_neg hn, ih h]

theorem Shape.ofAttributes?_insert {key : String} (h : key ≠ "type") (before : Attributes)
    (value : Json) (after : Attributes) :
    ofAttributes? (before ++ (key, value) :: after) = ofAttributes? (before ++ after) :=
  ofAttributes?_congr (Attributes.get?_insert h before value after)

theorem Shape.ofAttributes?_toAttributes (definition : Record) :
    ofAttributes? definition.toAttributes = ofAttributes? definition.attributes := by
  obtain ⟨before, fields, after⟩ := definition
  cases fields with
  | absent => simp [Record.toAttributes, Fields.toEntries]
  | listed fields =>
    rw [Record.toAttributes, List.append_assoc]
    exact ofAttributes?_insert (by decide) before _ after
  | other value =>
    rw [Record.toAttributes, List.append_assoc]
    exact ofAttributes?_insert (by decide) before _ after

section Written

theorem Field.ofJson_toJson {field : Field} (h : field.Proper) (hg : field.Genuine)
    (ht : ∀ type ∈ field.type?, Schema.ofJson type.toJson = type) : ofJson field.toJson = field := by
  obtain ⟨before, type, after, rfl⟩ := h.exists_mk
  rw [toJson, ofJson, Schema.atKey_insert hg, ht type rfl]

theorem Record.ofAttributes_toAttributes {definition : Record} (h : definition.Proper)
    (hg : definition.Genuine)
    (ht : ∀ type ∈ definition.fields.types, Schema.ofJson type.toJson = type) :
    ofAttributes definition.toAttributes = definition := by
  have ho := hg.others
  obtain ⟨before, _ | fields | value, after⟩ := definition
  · rw [hg.absent rfl] at ho ⊢
    simpa [toAttributes, Fields.toEntries] using ofAttributes_of_none ho
  · have hf : ∀ field ∈ fields, Field.ofJson field.toJson = field := fun field hm =>
      Field.ofJson_toJson (h.fields field hm) (hg.fields field hm) fun type hy =>
        ht type (Schema.mem_types_listed.2 ⟨field, hm, hy⟩)
    have hb := (Attributes.get?_append_eq_none_iff.1 ho).1
    rw [toAttributes, Fields.toEntries, List.append_assoc, List.singleton_append,
      ofAttributes_insert hb, Fields.ofJson, Field.ofJsons_eq, Field.toJsons_eq, List.map_map]
    congr 2
    exact (List.map_congr_left hf).trans (List.map_id fields)
  · cases h.fields

/-- A well-formed schema of genuine nodes is what its value is read as. -/
theorem Schema.ofJson_toJson {schema : Schema} (h : schema.WellFormed)
    (hg : ∀ node ∈ schema.positions, node.Genuine) : ofJson schema.toJson = schema := by
  induction schema using byChildren with
  | step schema ih =>
    have hc : ∀ child ∈ schema.children, ofJson child.toJson = child := fun child hm =>
      ih child hm (h.child hm) fun node hn => hg node (positions_of_child hm hn)
    have hn : schema.Genuine := hg schema schema.self_mem_positions
    cases schema with
    | primitive name wrapper =>
      cases wrapper with
      | none => rw [toJson, ofJson, Primitive.ofName?_name]
      | some wrapper => rw [toJson, ofJson, hn wrapper rfl]
    | reference name =>
      have ho : Primitive.ofName? name = none := hn
      rw [toJson, ofJson, ho]
    | union alternatives =>
      rw [toJson, ofJson, toJsons_eq, ofJsons_eq, List.map_map]
      congr 1
      exact (List.map_congr_left hc).trans (List.map_id _)
    | enum definition =>
      have hs : Shape.ofAttributes? definition.attributes = some .enum := hn
      rw [toJson, ofJson, hs]
    | record definition =>
      have hr : definition.Genuine := hn
      rw [toJson, ofJson, Shape.ofAttributes?_toAttributes, hr.shape,
        Record.ofAttributes_toAttributes h.proper hr hc]
    | array before items after =>
      cases items with
      | none => cases h.proper
      | some items =>
        rw [toJson, ofJson, Shape.ofAttributes?_insert (by decide), hn.1, atKey_insert hn.2,
          hc items (by simp)]
    | map before values after =>
      cases values with
      | none => cases h.proper
      | some values =>
        rw [toJson, ofJson, Shape.ofAttributes?_insert (by decide), hn.1, atKey_insert hn.2,
          hc values (by simp)]
    | unknown value => exact hn

end Written

section Read

def Schema.IsRead (schema : Schema) : Prop := ∃ part : Json, part.Keyed ∧ schema = ofJson part

theorem Schema.isRead_of_atKey {key : String} {entries : Attributes}
    (h : ∀ entry ∈ entries, Json.Keyed entry.2) {schema : Schema}
    (hs : (atKey key entries).2.1 = some schema) : schema.IsRead := by
  rw [atKey_eq] at hs
  obtain ⟨part, hg, rfl⟩ := Option.map_eq_some_iff.1 hs
  exact ⟨part, h _ (Attributes.mem_of_get? hg), rfl⟩

theorem Field.isRead_of_ofJson {value : Json} (h : value.Keyed) {type : Schema}
    (ht : (ofJson value).type? = some type) : type.IsRead := by
  cases h with
  | obj entries nodup h => exact Schema.isRead_of_atKey h ht
  | _ => cases ht

theorem Record.isRead_of_ofAttributes {entries : Attributes}
    (h : ∀ entry ∈ entries, Json.Keyed entry.2) {type : Schema}
    (ht : type ∈ (ofAttributes entries).fields.types) : type.IsRead := by
  rw [fields_ofAttributes, fieldsAt] at ht
  split at ht
  next => cases ht
  next value hf =>
    have hk : value.Keyed := h _ (Attributes.mem_of_get? hf)
    cases hk with
    | arr elements h =>
      rw [Fields.ofJson, Field.ofJsons_eq] at ht
      obtain ⟨field, hm, hy⟩ := Schema.mem_types_listed.1 ht
      obtain ⟨part, hp, rfl⟩ := List.mem_map.1 hm
      exact Field.isRead_of_ofJson (h part hp) hy
    | _ => cases ht

theorem Schema.IsRead.child {schema child : Schema} (h : schema.IsRead)
    (hc : child ∈ schema.children) : child.IsRead := by
  obtain ⟨value, hk, rfl⟩ := h
  cases hk with
  | arr elements h =>
    rw [ofJson, children_union, ofJsons_eq, List.mem_map] at hc
    obtain ⟨part, hp, rfl⟩ := hc
    exact ⟨part, h part hp, rfl⟩
  | obj entries nodup h =>
    rw [ofJson] at hc
    split at hc
    next => cases hc
    next => cases hc
    next => exact Record.isRead_of_ofAttributes h hc
    next => exact isRead_of_atKey h (Option.mem_toList.1 hc)
    next => exact isRead_of_atKey h (Option.mem_toList.1 hc)
    next => cases hc
  | str name =>
    rw [ofJson] at hc
    split at hc <;> cases hc
  | _ => cases hc

theorem Schema.IsRead.position {schema type : Schema} (h : schema.IsRead)
    (ht : type ∈ schema.positions) : type.IsRead := by
  induction schema using byChildren with
  | step schema ih =>
    obtain rfl | ⟨child, hc, ht⟩ := mem_positions.1 ht
    · exact h
    · exact ih child hc (h.child hc) ht

theorem Schema.get?_atKey_self (key : String) (entries : Attributes) :
    (atKey key entries).1.get? key = none := by
  induction entries with
  | nil => rfl
  | cons entry rest ih =>
    obtain ⟨name, value⟩ := entry
    rw [atKey]
    split
    next => rfl
    next hn => exact (if_neg hn).trans ih

theorem Field.genuine_ofJson (value : Json) : (ofJson value).Genuine := by
  cases value with
  | obj entries => exact Schema.get?_atKey_self "type" entries
  | _ => trivial

theorem Record.get?_ofAttributes_fields {entries : Attributes}
    (h : (entries.map Prod.fst).Nodup) :
    (ofAttributes entries).attributes.get? "fields" = none := by
  induction entries with
  | nil => rfl
  | cons entry rest ih =>
    obtain ⟨name, value⟩ := entry
    obtain ⟨hn, hr⟩ := List.nodup_cons.1 h
    rw [ofAttributes]
    split
    next he => exact Attributes.get?_eq_none_iff.2 (he ▸ hn)
    next he =>
      have ih := ih hr
      revert ih
      cases ofAttributes rest
      exact fun ih => (if_neg he).trans ih

theorem Record.genuine_ofAttributes {entries : Attributes}
    (hs : Shape.ofAttributes? entries = some .record) (hn : (entries.map Prod.fst).Nodup) :
    (ofAttributes entries).Genuine := by
  refine ⟨?_, ?_, ?_, ?_⟩
  · rw [← hs]
    exact Shape.ofAttributes?_congr (get?_ofAttributes (by decide) entries)
  · exact get?_ofAttributes_fields hn
  · intro ha
    rw [fields_ofAttributes, fieldsAt] at ha
    split at ha
    next hf => simp [ofAttributes_of_none hf]
    next value hf => cases value <;> cases ha
  · intro field hm
    rw [fieldList, fields_ofAttributes, fieldsAt] at hm
    split at hm
    next fields hf =>
      split at hf
      next => cases hf
      next value hg =>
        cases value with
        | arr elements =>
          cases hf
          rw [Field.ofJsons_eq] at hm
          obtain ⟨part, -, rfl⟩ := List.mem_map.1 hm
          exact Field.genuine_ofJson part
        | _ => cases hf
    next => cases hm

theorem Schema.IsRead.genuine {schema : Schema} (h : schema.IsRead) : schema.Genuine := by
  obtain ⟨value, hk, rfl⟩ := h
  cases hk with
  | arr elements h =>
    rw [ofJson]
    trivial
  | obj entries nodup h =>
    rw [ofJson]
    split
    next name hs => exact fun attributes ha => Option.some.inj ha ▸ hs
    next hs => exact hs
    next hs => exact Record.genuine_ofAttributes hs nodup
    next hs =>
      refine ⟨?_, get?_atKey_self "items" entries⟩
      exact (Shape.ofAttributes?_congr (get?_atKey (by decide) entries)).trans hs
    next hs =>
      refine ⟨?_, get?_atKey_self "values" entries⟩
      exact (Shape.ofAttributes?_congr (get?_atKey (by decide) entries)).trans hs
    next hs =>
      change ofJson (.obj entries) = _
      rw [ofJson, hs]
  | str name =>
    rw [ofJson]
    split
    next => exact fun attributes ha => absurd ha (Option.not_mem_none attributes)
    next hn => exact hn
  | _ => exact rfl

end Read

section Passes

theorem Attributes.shape_settle (parent : Json) (attributes : Attributes) :
    Shape.ofAttributes? (attributes.settle parent).2 = Shape.ofAttributes? attributes :=
  Shape.ofAttributes?_congr (get?_settle "type" (by decide) (by decide) parent attributes)

theorem Field.genuine_named {field : Field} (h : field.Genuine) (parent : Json) :
    (field.named parent).Genuine := by
  obtain ⟨before, _ | type, after⟩ | value := field <;> exact h

theorem Field.genuine_linked {field : Field} (h : field.Genuine) (resolve : String → String) :
    (field.linked resolve).Genuine := by
  obtain ⟨before, _ | type, after⟩ | value := field <;> exact h

theorem Record.fieldList_named (parent : Json) (definition : Record) :
    (definition.named parent).fieldList =
      definition.fieldList.map (Field.named (definition.attributes.settle parent).1) := by
  obtain ⟨before, _ | fields | value, after⟩ := definition
  · rfl
  · exact Field.namedAll_eq _ fields
  · rfl

theorem Record.fieldList_linked (resolve : String → String) (definition : Record) :
    (definition.linked resolve).fieldList = definition.fieldList.map (Field.linked resolve) := by
  obtain ⟨before, _ | fields | value, after⟩ := definition
  · rfl
  · exact Field.linkedAll_eq fields
  · rfl

theorem Record.genuine_named {definition : Record} (h : definition.Genuine) (parent : Json) :
    (definition.named parent).Genuine := by
  refine ⟨?_, ?_, ?_, ?_⟩
  · rw [attributes_named, Attributes.shape_settle]
    exact h.shape
  · rw [attributes_named, Attributes.get?_settle "fields" (by decide) (by decide)]
    exact h.others
  · rw [fields_named]
    exact fun ha => nomatch ha
  · intro field hm
    rw [fieldList_named] at hm
    obtain ⟨own, ho, rfl⟩ := List.mem_map.1 hm
    exact Field.genuine_named (h.fields own ho) _

theorem Record.genuine_linked {definition : Record} (h : definition.Genuine)
    (resolve : String → String) : (definition.linked resolve).Genuine := by
  refine ⟨?_, ?_, ?_, ?_⟩
  · rw [attributes_linked]
    exact h.shape
  · rw [attributes_linked]
    exact h.others
  · rw [fields_linked]
    exact fun ha => nomatch ha
  · intro field hm
    rw [fieldList_linked] at hm
    obtain ⟨own, ho, rfl⟩ := List.mem_map.1 hm
    exact Field.genuine_linked (h.fields own ho) resolve

theorem Registry.ofName?_resolution (registry : Registry) {name : String}
    (h : Primitive.ofName? name = none) : Primitive.ofName? (registry.resolution name) = none := by
  unfold resolution
  split
  next full hf =>
    obtain ⟨-, rfl⟩ | ⟨-, hc⟩ := find_eq_some hf
    · exact h
    · have hm : full ∈ registry.candidates name := by
        rw [hc]
        exact List.mem_singleton_self full
      have hl := (mem_candidates.1 hm).2
      by_contra hp
      obtain ⟨primitive, hp⟩ := Option.ne_none_iff_exists'.1 hp
      obtain rfl := Primitive.name_of_ofName? hp
      have hs : lastSegment primitive.name = primitive.name := by cases primitive <;> decide
      rw [← hl, hs, Primitive.ofName?_name] at h
      cases h
  next => exact h

namespace Schema

theorem genuine_named {schema : Schema} (h : schema.Genuine) (parent : Json) :
    (schema.named parent).Genuine := by
  cases schema with
  | enum definition => exact (Attributes.shape_settle parent _).trans h
  | record definition => exact Record.genuine_named h parent
  | array before items after => cases items <;> exact h
  | map before values after => cases values <;> exact h
  | union alternatives => trivial
  | primitive name wrapper => exact h
  | reference name => exact h
  | unknown value => exact h

theorem genuine_linked {schema : Schema} (h : schema.Genuine) (registry : Registry) :
    (schema.linked registry.resolution).Genuine := by
  cases schema with
  | reference name => exact registry.ofName?_resolution h
  | record definition => exact Record.genuine_linked h _
  | array before items after => cases items <;> exact h
  | map before values after => cases values <;> exact h
  | union alternatives => trivial
  | enum definition => exact h
  | primitive name wrapper => exact h
  | unknown value => exact h

/-- The value of a document that is named and linked is read as this document. -/
theorem ofJson_toJson_linked {value : Json} (hk : value.Keyed) (h : (ofJson value).WellFormed)
    (registry : Registry) :
    ofJson (((ofJson value).named .null).linked registry.resolution).toJson =
      ((ofJson value).named .null).linked registry.resolution := by
  refine ofJson_toJson (wellFormed_linked (wellFormed_named h .none)) fun node hn => ?_
  rw [positions_linked, List.mem_map] at hn
  obtain ⟨named, hn, rfl⟩ := hn
  obtain ⟨origin, ho, space, -, rfl⟩ := mem_positions_named h .none hn
  have hr : (ofJson value).IsRead := ⟨value, hk, rfl⟩
  exact genuine_linked (genuine_named (hr.position ho).genuine space) registry

end Schema

end Passes

namespace Schema

theorem eq_linked_of_augment {document augmented : Schema} (h : document.WellFormed)
    {registry : Registry} (ha : (document.augment registry).2.result = .ok augmented) :
    ∃ extended : Registry, augmented = (document.named .null).linked extended.resolution := by
  unfold augment at ha
  rw [assign_eq h .none] at ha
  exact ⟨_, eq_linked_of_link (document.named .null) augmented ha⟩

end Schema

namespace Json

/-- A value without what augmenting may change at its type positions. -/
def outline (value : Json) : Json := (Schema.ofJson value).outline.toJson

/-- Augmenting a document that is read from a value leaves the outline of the value as it is,
whatever names are registered already. -/
theorem outline_augment {value : Json} (hk : value.Keyed) (h : (Schema.ofJson value).WellFormed)
    {registry : Registry} {augmented : Schema}
    (ha : ((Schema.ofJson value).augment registry).2.result = .ok augmented) :
    value.outline.Equal augmented.toJson.outline := by
  obtain ⟨extended, rfl⟩ := Schema.eq_linked_of_augment h ha
  have hn := Schema.wellFormed_named h .none
  unfold outline
  rw [Schema.ofJson_toJson_linked hk h, Schema.outline_linked hn]
  exact Schema.outline_named h .null

def station : Json :=
  let kind : Json := .obj [("type", .str "enum"), ("name", .str "Kind"),
    ("symbols", .arr [.str "Station", .str "Stop"])]
  let time : Json := .obj [("type", .str "long"), ("logicalType", .str "timestamp-millis")]
  let code : Json := .obj [("type", .str "fixed"), ("name", .str "Kind"), ("size", .int 4)]
  let mark : Json := .obj [("type", .str "record"), ("name", .str "Mark")]
  .obj [("type", .str "record"), ("name", .str "Station"), ("namespace", .str "rail"),
    ("fields", .arr [
      .obj [("name", .str "kind"), ("type", kind), ("default", .str "Station")],
      .obj [("name", .str "next"), ("type", .arr [mark, time, code, .str "Station"])]]),
    ("doc", .str "Station")]

theorem wellFormed_station : (Schema.ofJson station).WellFormed := by
  refine Schema.wellFormed_record.2
    ⟨⟨⟨⟨_, rfl⟩, .inr ⟨_, rfl⟩⟩, fun field hm => ?_⟩, fun type hm => ?_⟩
  · obtain rfl | rfl := List.mem_pair.1 hm <;> exact ⟨⟨_, rfl⟩, ⟨_, rfl⟩⟩
  · obtain rfl | rfl := List.mem_pair.1 hm
    · exact Schema.wellFormed_enum.2 ⟨⟨⟨_, rfl⟩, .inl rfl⟩, .inr ⟨_, rfl⟩⟩
    · refine Schema.wellFormed_union.2 (List.forall_mem_cons.2 ⟨?_, List.forall_mem_cons.2 ⟨?_,
        List.forall_mem_cons.2 ⟨?_, List.forall_mem_singleton.2 ?_⟩⟩⟩)
      · exact Schema.wellFormed_record.2 ⟨⟨⟨⟨_, rfl⟩, .inl rfl⟩, trivial⟩, List.forall_mem_nil _⟩
      · exact Schema.wellFormed_primitive _ _
      · exact Schema.wellFormed_iff.2 ⟨trivial, List.forall_mem_nil _⟩
      · exact Schema.wellFormed_reference _

theorem outline_augment_station :
    station.Keyed ∧ (Schema.ofJson station).WellFormed ∧
    ∃ augmented, ((Schema.ofJson station).augment {}).2.result = .ok augmented ∧
      station.outline.Equal augmented.toJson.outline := by
  have hk : station.Keyed := by simp [station]
  have hs : ((Schema.ofJson station).augment {}).2.result.isOk := by decide +kernel
  have ha := Schema.augment_of_isOk wellFormed_station hs
  exact ⟨hk, wellFormed_station, _, ha, outline_augment hk wellFormed_station ha⟩

end Json

end AvroBindings
