import AvroBindings.Proofs.Schema.Augmented

/-! The skeleton of a schema: its nodes with the attributes that count, without the wrappers of
primitives, and without the unions around single types. It has the same references, and the skeletons
of the definitions. -/

namespace AvroBindings

/-- The attributes of some keys, in the order of the keys. -/
def Attributes.only (keys : List String) (attributes : Attributes) : Attributes :=
  keys.filterMap fun key => (attributes.get? key).map (key, ·)

/-- A union of a single type, neither a union nor null, counts as this type where it stands alone. -/
def Schema.alone : Schema → Schema
  | .union [only] => if only.isUnion || only.isNull then .union [only] else only
  | schema => schema

def Enum.bare (definition : Enum) : Enum :=
  ⟨definition.attributes.only ["name", "symbols", "namespace"]⟩

mutual
/-- The skeleton of an alternative of a union. Anywhere else a single type may stand for a union. -/
def Schema.bare : Schema → Schema
  | .primitive name _ => .primitive name none
  | .reference name => .reference name
  | .union alternatives => .union (Schema.bareAll alternatives)
  | .enum definition => .enum definition.bare
  | .record definition => .record definition.bare
  | .array _ (some items) _ => .array [] (some items.bare.alone) []
  | .array _ none _ => .array [] none []
  | .map _ (some values) _ => .map [] (some values.bare.alone) []
  | .map _ none _ => .map [] none []
  | .unknown value => .unknown value

def Schema.bareAll : List Schema → List Schema
  | [] => []
  | schema :: rest => schema.bare :: Schema.bareAll rest

def Record.bare : Record → Record
  | .mk before fields after =>
    .mk (Attributes.only ["name", "namespace"] (before ++ after)) fields.bare []

def Fields.bare : Fields → Fields
  | .absent => .listed []
  | .listed fields => .listed (Field.bareAll fields)
  | .other value => .other value

def Field.bareAll : List Field → List Field
  | [] => []
  | field :: rest => field.bare :: Field.bareAll rest

def Field.bare : Field → Field
  | .mk before (some type) after =>
    .mk (Attributes.only ["name"] (before ++ after)) (some type.bare.alone) []
  | .mk before none after => .mk (Attributes.only ["name"] (before ++ after)) none []
  | .malformed value => .malformed value
end

/-- The skeleton of a document. -/
def Schema.skeleton (schema : Schema) : Schema := schema.bare.alone

def Definition.bare : Definition → Definition
  | enum definition => enum definition.bare
  | record definition => record definition.bare

namespace Attributes

variable {attributes : Attributes} {keys : List String} {key : String}

theorem get?_only (attributes : Attributes) (keys : List String) (key : String) :
    (attributes.only keys).get? key = if key ∈ keys then attributes.get? key else none := by
  unfold only
  induction keys with
  | nil => rfl
  | cons first rest ih =>
    rw [List.filterMap_cons]
    cases ha : attributes.get? first with
    | none =>
      by_cases hk : key = first
      · subst hk
        simp [ih, ha]
      · simp [ih, hk]
    | some value =>
      by_cases hk : first = key
      · subst hk
        simp [get?, ha]
      · simp [get?, ih, hk, Ne.symm hk]

theorem get?_only_of_mem (h : key ∈ keys) : (attributes.only keys).get? key = attributes.get? key := by
  rw [get?_only, if_pos h]

theorem only_congr {other : Attributes} (h : ∀ key ∈ keys, attributes.get? key = other.get? key) :
    attributes.only keys = other.only keys := by
  unfold only
  induction keys with
  | nil => rfl
  | cons first rest ih =>
    rw [List.filterMap_cons, List.filterMap_cons, h first List.mem_cons_self,
      ih fun key hk => h key (List.mem_cons_of_mem first hk)]

theorem name_only (h : "name" ∈ keys) : (attributes.only keys).name = attributes.name := by
  unfold Attributes.name
  rw [get?_only_of_mem h]

theorem space_only (h : "namespace" ∈ keys) : (attributes.only keys).space = attributes.space := by
  unfold Attributes.space
  rw [get?_only_of_mem h]

theorem only_cons {value : Json} (h : attributes.get? key = some value) (keys : List String) :
    attributes.only (key :: keys) = (key, value) :: attributes.only keys := by
  rw [only, List.filterMap_cons, h]
  rfl

theorem only_append (attributes : Attributes) (keys more : List String) :
    attributes.only (keys ++ more) = attributes.only keys ++ attributes.only more :=
  List.filterMap_append

theorem set_append {first : Attributes} (h : first.get? key = none) (value : Json)
    (rest : Attributes) : set key value (first ++ rest) = first ++ set key value rest := by
  induction first with
  | nil => rfl
  | cons entry first ih =>
    rw [get?] at h
    split at h
    next => cases h
    next hk => rw [List.cons_append, set, if_neg hk, ih h, List.cons_append]

theorem only_rename {name : Json} (hn : attributes.name = .ok name) (hk : "name" ∉ keys)
    (hs : "namespace" ∉ keys) (space new : Json) :
    (attributes.rename space new).only ("name" :: keys ++ ["namespace"]) =
      (attributes.only ("name" :: keys ++ ["namespace"])).rename space new := by
  have hg : attributes.get? "name" = some name := by
    unfold Attributes.name at hn
    split at hn
    next hv =>
      cases hn
      exact hv
    next => cases hn
  have hr : (attributes.rename space new).only keys = attributes.only keys :=
    only_congr fun key hm => get?_rename (fun h => hk (h ▸ hm)) (fun h => hs (h ▸ hm)) _ _ _
  have hnew : (attributes.rename space new).get? "name" = some new := by
    rw [rename, get?_set_of_ne (by decide), get?_set_self]
  have hspace : (attributes.rename space new).only ["namespace"] = [("namespace", space)] :=
    only_cons (get?_set_self ..) []
  have hlast : set "namespace" space (attributes.only ["namespace"]) = [("namespace", space)] := by
    cases ha : attributes.get? "namespace" with
    | none => simp [only, ha, set]
    | some value => simp [only, ha, set]
  have hnone : Attributes.get? "namespace" (("name", new) :: attributes.only keys) = none := by
    rw [get?, if_neg (by simp), get?_only, if_neg hs]
  rw [only_append, only_append, only_cons hnew, only_cons hg, hr, hspace]
  have hfirst (rest : Attributes) :
      set "name" new (("name", name) :: rest) = ("name", new) :: rest := if_pos rfl
  have hset := set_append hnone space (attributes.only ["namespace"])
  rw [hlast] at hset
  rw [rename, List.cons_append, List.cons_append, hfirst]
  exact hset.symm

end Attributes

theorem Schema.bareAll_eq (schemas : List Schema) :
    Schema.bareAll schemas = schemas.map Schema.bare := by
  induction schemas with
  | nil => rfl
  | cons schema rest ih => rw [bareAll, ih, List.map_cons]

theorem Field.bareAll_eq (fields : List Field) : Field.bareAll fields = fields.map Field.bare := by
  induction fields with
  | nil => rfl
  | cons field rest ih => rw [bareAll, ih, List.map_cons]

theorem Field.type?_bare (field : Field) :
    field.bare.type? = field.type?.map Schema.skeleton := by
  obtain ⟨before, _ | type, after⟩ | value := field <;> rfl

theorem Field.type_bare {field : Field} {type : Schema} (h : field.type? = some type) :
    field.bare.type = .ok type.skeleton := by
  rw [type_eq_ok, type?_bare, h]
  rfl

theorem Fields.types_bare (fields : Fields) : fields.bare.types = fields.types.map Schema.skeleton := by
  cases fields with
  | listed fields =>
    rw [Fields.bare, Field.bareAll_eq, types, types, List.filterMap_map, List.map_filterMap]
    exact congrArg (List.filterMap · fields) (funext Field.type?_bare)
  | absent => rfl
  | other value => rfl

theorem Record.attributes_bare (definition : Record) :
    definition.bare.attributes = definition.attributes.only ["name", "namespace"] := by
  obtain ⟨before, fields, after⟩ := definition
  exact List.append_nil _

theorem Record.fields_bare (definition : Record) :
    definition.bare.fields = definition.fields.bare := by
  obtain ⟨before, fields, after⟩ := definition
  rfl

theorem Field.name_bare (field : Field) : field.bare.name = field.name := by
  obtain ⟨before, _ | type, after⟩ | value := field
  · simp [Field.bare, Field.name, Attributes.get?_only_of_mem]
  · simp [Field.bare, Field.name, Attributes.get?_only_of_mem]
  · rfl

namespace Schema

def innerSkeleton : Schema → Schema → Schema
  | union _, child => child.bare
  | _, child => child.skeleton

theorem children_bare (schema : Schema) :
    schema.bare.children = schema.children.map schema.innerSkeleton := by
  cases schema with
  | union alternatives => exact bareAll_eq alternatives
  | record definition =>
    rw [bare, children_record, Record.fields_bare]
    exact definition.fields.types_bare
  | array before items after => cases items <;> rfl
  | map before values after => cases values <;> rfl
  | primitive name wrapper => rfl
  | reference name => rfl
  | enum definition => rfl
  | unknown value => rfl

theorem isUnion_bare (schema : Schema) : schema.bare.isUnion = schema.isUnion := by
  cases schema with
  | array before items after => cases items <;> rfl
  | map before values after => cases values <;> rfl
  | _ => rfl

theorem isNull_bare (schema : Schema) : schema.bare.isNull = schema.isNull := by
  cases schema with
  | primitive name wrapper => cases name <;> rfl
  | array before items after => cases items <;> rfl
  | map before values after => cases values <;> rfl
  | _ => rfl

variable {schema : Schema}

theorem alone_cases (schema : Schema) :
    schema.alone = schema ∨
      (schema = union [schema.alone] ∧ schema.alone.isUnion = false ∧ schema.alone.isNull = false) := by
  unfold alone
  split
  next only =>
    split
    next => exact .inl rfl
    next h =>
      rw [Bool.or_eq_true, not_or] at h
      exact .inr ⟨rfl, eq_false_of_ne_true h.1, eq_false_of_ne_true h.2⟩
  next => exact .inl rfl

theorem alone_congr {β : Sort _} {f : Schema → β} (h : ∀ only, f (union [only]) = f only)
    (schema : Schema) : f schema.alone = f schema := by
  obtain he | ⟨he, -⟩ := schema.alone_cases
  · rw [he]
  · exact (h schema.alone).symm.trans (congrArg f he.symm)

theorem alone_of_not_isUnion {schema : Schema} (h : schema.isUnion = false) :
    schema.alone = schema := by
  cases schema <;> first | rfl | cases h

theorem skeleton_single {only : Schema} (hu : only.isUnion = false) (hn : only.isNull = false) :
    (union [only]).skeleton = only.skeleton := by
  have hb : only.bare.isUnion = false := only.isUnion_bare.trans hu
  have hn' : only.bare.isNull = false := only.isNull_bare.trans hn
  rw [skeleton, skeleton, alone_of_not_isUnion hb, bare, bareAll, bareAll, alone, hb, hn']
  rfl

theorem innerSkeleton_congr {β : Sort _} {f : Schema → β} (h : ∀ only, f (union [only]) = f only)
    (schema child : Schema) : f (schema.innerSkeleton child) = f child.bare := by
  cases schema with
  | union alternatives => rfl
  | _ => exact alone_congr h child.bare

theorem references_single (only : Schema) : (union [only]).references = only.references := by
  simp [references, referencesAll]

theorem defined_single (only : Schema) : (union [only]).defined = only.defined := by
  rw [defined_eq]
  simp [definition?]

theorem reference?_bare (schema : Schema) : schema.bare.reference? = schema.reference? := by
  cases schema with
  | array before items after => cases items <;> rfl
  | map before values after => cases values <;> rfl
  | _ => rfl

theorem definition?_bare (schema : Schema) :
    schema.bare.definition? = schema.definition?.map Definition.bare := by
  cases schema with
  | array before items after => cases items <;> rfl
  | map before values after => cases values <;> rfl
  | _ => rfl

theorem references_bare (schema : Schema) : schema.bare.references = schema.references := by
  induction schema using byChildren with
  | step schema ih =>
    rw [references_children, references_children schema, children_bare, reference?_bare,
      List.flatMap_map, List.flatMap_def, List.flatMap_def]
    congr 2
    refine List.map_congr_left fun child hc => ?_
    rw [innerSkeleton_congr references_single, ih child hc]

theorem defined_bare (schema : Schema) :
    schema.bare.defined = schema.defined.map Definition.bare := by
  induction schema using byChildren with
  | step schema ih =>
    rw [defined_eq, defined_eq schema, children_bare, definition?_bare, List.map_append,
      List.map_flatMap, List.flatMap_map, Option.toList_map, List.flatMap_def, List.flatMap_def]
    congr 2
    refine List.map_congr_left fun child hc => ?_
    rw [innerSkeleton_congr defined_single, ih child hc]

end Schema

theorem Attributes.named_only_iff {attributes : Attributes} {keys : List String}
    (hn : "name" ∈ keys) (hs : "namespace" ∈ keys) :
    (attributes.only keys).Named ↔ attributes.Named := by
  constructor
  · rintro ⟨h, h'⟩
    exact ⟨name_only hn ▸ h, space_only hs ▸ h'⟩
  · rintro ⟨h, h'⟩
    exact ⟨(name_only hn).symm ▸ h, (space_only hs).symm ▸ h'⟩

theorem Enum.proper_bare_iff {definition : Enum} : definition.bare.Proper ↔ definition.Proper := by
  have hs : definition.bare.attributes.get? "symbols" = definition.attributes.get? "symbols" :=
    Attributes.get?_only_of_mem (by decide)
  have hn : definition.bare.attributes.Named ↔ definition.attributes.Named :=
    Attributes.named_only_iff (by decide) (by decide)
  constructor
  · rintro ⟨h, h'⟩
    exact ⟨hn.1 h, hs ▸ h'⟩
  · rintro ⟨h, h'⟩
    exact ⟨hn.2 h, hs.symm ▸ h'⟩

theorem Field.proper_bare_iff {field : Field} : field.bare.Proper ↔ field.Proper := by
  constructor
  · rintro ⟨⟨name, hn⟩, ⟨type, ht⟩⟩
    rw [name_bare] at hn
    rw [type?_bare] at ht
    obtain ⟨own, ho, -⟩ := Option.map_eq_some_iff.1 ht
    exact ⟨⟨name, hn⟩, ⟨own, ho⟩⟩
  · rintro ⟨⟨name, hn⟩, ⟨type, ht⟩⟩
    exact ⟨⟨name, by rw [name_bare, hn]⟩, ⟨type.skeleton, by rw [type?_bare, ht]; rfl⟩⟩

theorem Fields.proper_bare_iff {fields : Fields} : fields.bare.Proper ↔ fields.Proper := by
  cases fields with
  | absent => simp [bare, Proper]
  | listed fields => simp [bare, Proper, Field.bareAll_eq, Field.proper_bare_iff]
  | other value => rfl

theorem Record.proper_bare_iff {definition : Record} :
    definition.bare.Proper ↔ definition.Proper := by
  have hn : definition.bare.attributes.Named ↔ definition.attributes.Named := by
    rw [attributes_bare]
    exact Attributes.named_only_iff (by decide) (by decide)
  have hf : definition.bare.fields.Proper ↔ definition.fields.Proper := by
    rw [fields_bare, Fields.proper_bare_iff]
  exact ⟨fun ⟨h, h'⟩ => ⟨hn.1 h, hf.1 h'⟩, fun ⟨h, h'⟩ => ⟨hn.2 h, hf.2 h'⟩⟩

namespace Schema

theorem proper_bare_iff {schema : Schema} : schema.bare.Proper ↔ schema.Proper := by
  cases schema with
  | enum definition => exact Enum.proper_bare_iff
  | record definition => exact Record.proper_bare_iff
  | array before items after => cases items <;> exact .rfl
  | map before values after => cases values <;> exact .rfl
  | union alternatives => exact .rfl
  | primitive name wrapper => exact .rfl
  | reference name => exact .rfl
  | unknown value => exact .rfl

theorem wellFormed_single (only : Schema) : (union [only]).WellFormed = only.WellFormed := by
  simp [wellFormed_union]

theorem wellFormed_bare_iff {schema : Schema} : schema.bare.WellFormed ↔ schema.WellFormed := by
  induction schema using byChildren with
  | step schema ih =>
    rw [wellFormed_iff, @wellFormed_iff schema, proper_bare_iff, children_bare,
      List.forall_mem_map]
    refine and_congr_right fun _ => forall_congr' fun child => forall_congr' fun hc => ?_
    rw [innerSkeleton_congr wellFormed_single, ih child hc]

theorem references_skeleton (schema : Schema) : schema.skeleton.references = schema.references := by
  rw [skeleton, alone_congr references_single, references_bare]

theorem defined_skeleton (schema : Schema) :
    schema.skeleton.defined = schema.defined.map Definition.bare := by
  rw [skeleton, alone_congr defined_single, defined_bare]

theorem wellFormed_skeleton_iff {schema : Schema} :
    schema.skeleton.WellFormed ↔ schema.WellFormed := by
  rw [skeleton, alone_congr wellFormed_single, wellFormed_bare_iff]

end Schema

end AvroBindings
