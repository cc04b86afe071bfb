import AvroBindings.Proofs.Schema.Augmented
import Mathlib.Data.List.Forall2

/-! The outline of a schema: all of it but the names and namespaces of its definitions, and one
placeholder for every reference. Neither naming definitions nor replacing references shows in the
value of it, whatever the order of the entries in objects, but that the fields of a record come
last. -/

namespace AvroBindings

namespace Json

inductive Keyed : Json → Prop where
  | null : Keyed null
  | bool (value : Bool) : Keyed (bool value)
  | int (value : Int) : Keyed (int value)
  | float (value : Binary64) : Keyed (float value)
  | str (value : String) : Keyed (str value)
  | arr (elements : List Json) (h : ∀ element ∈ elements, Keyed element) : Keyed (arr elements)
  | obj (entries : Attributes) (nodup : (entries.map Prod.fst).Nodup)
    (h : ∀ entry ∈ entries, Keyed entry.2) : Keyed (obj entries)

attribute [simp] Keyed.null Keyed.bool Keyed.int Keyed.float Keyed.str

@[simp] theorem keyed_arr {elements : List Json} :
    (arr elements).Keyed ↔ ∀ element ∈ elements, element.Keyed :=
  ⟨fun | .arr _ h => h, .arr elements⟩

@[simp] theorem keyed_obj {entries : Attributes} : (obj entries).Keyed ↔
    (entries.map Prod.fst).Nodup ∧ ∀ entry ∈ entries, entry.2.Keyed :=
  ⟨fun | .obj _ nodup h => ⟨nodup, h⟩, fun h => .obj entries h.1 h.2⟩

/-- Arrays are equal element by element, and objects entry by entry in some order. -/
inductive Equal : Json → Json → Prop where
  | refl (value : Json) : Equal value value
  | arr {elements others : List Json} (h : List.Forall₂ Equal elements others) :
    Equal (arr elements) (arr others)
  | obj {entries others ordered : Attributes}
    (keys : entries.map Prod.fst = ordered.map Prod.fst)
    (values : List.Forall₂ Equal (entries.map Prod.snd) (ordered.map Prod.snd))
    (perm : ordered.Perm others) : Equal (obj entries) (obj others)

variable {old new : Json}

theorem Equal.entry_perm (h : Equal old new) (key : String) (before : Attributes)
    {after others : Attributes} (hp : (before ++ (key, new) :: after).Perm others) :
    Equal (.obj (before ++ (key, old) :: after)) (.obj others) := by
  have hs : ∀ values : List Json, List.Forall₂ Equal values values :=
    fun values => List.forall₂_same.2 fun value _ => .refl value
  refine .obj (by simp) ?_ hp
  simp only [List.map_append, List.map_cons]
  exact List.rel_append (hs _) (.cons h (hs _))

theorem Equal.entry (h : Equal old new) (key : String) (before after : Attributes) :
    Equal (.obj (before ++ (key, old) :: after)) (.obj (before ++ (key, new) :: after)) :=
  h.entry_perm key before (.refl _)

end Json

/-- All attributes but the name and the namespace. -/
def Attributes.nameless (attributes : Attributes) : Attributes :=
  attributes.filter fun entry => entry.1 ∉ ["name", "namespace"]

mutual
def Schema.outline : Schema → Schema
  | .reference _ => .reference ""
  | .union alternatives => .union (Schema.outlineAll alternatives)
  | .enum definition => .enum ⟨definition.attributes.nameless⟩
  | .record definition => .record definition.outline
  | .array before (some items) after => .array before (some items.outline) after
  | .map before (some values) after => .map before (some values.outline) after
  | schema => schema

def Schema.outlineAll : List Schema → List Schema
  | [] => []
  | schema :: rest => schema.outline :: Schema.outlineAll rest

def Record.outline : Record → Record
  | .mk before fields after => .mk before.nameless fields.outline after.nameless

def Fields.outline : Fields → Fields
  | .absent => .listed []
  | .listed fields => .listed (Field.outlineAll fields)
  | .other value => .other value

def Field.outlineAll : List Field → List Field
  | [] => []
  | field :: rest => field.outline :: Field.outlineAll rest

def Field.outline : Field → Field
  | .mk before (some type) after => .mk before (some type.outline) after
  | field => field
end

theorem Schema.outlineAll_eq (schemas : List Schema) :
    Schema.outlineAll schemas = schemas.map Schema.outline := by
  induction schemas with
  | nil => rfl
  | cons schema rest ih => rw [outlineAll, ih, List.map_cons]

theorem Field.outlineAll_eq (fields : List Field) :
    Field.outlineAll fields = fields.map Field.outline := by
  induction fields with
  | nil => rfl
  | cons field rest ih => rw [outlineAll, ih, List.map_cons]

theorem Schema.toJsons_eq (schemas : List Schema) :
    Schema.toJsons schemas = schemas.map Schema.toJson := by
  induction schemas with
  | nil => rfl
  | cons schema rest ih => rw [toJsons, ih, List.map_cons]

theorem Field.toJsons_eq (fields : List Field) : Field.toJsons fields = fields.map Field.toJson := by
  induction fields with
  | nil => rfl
  | cons field rest ih => rw [toJsons, ih, List.map_cons]

namespace Attributes

variable {attributes : Attributes}

theorem nameless_append (attributes others : Attributes) :
    nameless (attributes ++ others) = attributes.nameless ++ others.nameless :=
  List.filter_append ..

theorem nameless_set {key : String} (h : key ∈ ["name", "namespace"]) (value : Json)
    (attributes : Attributes) : (attributes.set key value).nameless = attributes.nameless := by
  have hd : decide (key ∉ ["name", "namespace"]) = false := decide_eq_false (not_not_intro h)
  unfold nameless
  induction attributes with
  | nil =>
    rw [set, List.filter_cons, hd]
    rfl
  | cons entry rest ih =>
    rw [set]
    split
    next hk =>
      rw [List.filter_cons, List.filter_cons, hk, hd]
      rfl
    next => rw [List.filter_cons, List.filter_cons, ih]

theorem nameless_rename (attributes : Attributes) (space name : Json) :
    (attributes.rename space name).nameless = attributes.nameless := by
  rw [rename, nameless_set (by simp), nameless_set (by simp)]

theorem nameless_settle (parent : Json) (attributes : Attributes) :
    (attributes.settle parent).2.nameless = attributes.nameless := by
  unfold settle
  split
  next => exact nameless_rename ..
  next => rfl

end Attributes

section Linked

variable {resolve : String → String}

theorem Field.outline_linked {field : Field}
    (ht : ∀ type, field.type? = some type → (type.linked resolve).outline = type.outline) :
    (field.linked resolve).outline = field.outline := by
  obtain ⟨before, _ | type, after⟩ | value := field
  · rfl
  · rw [linked, outline, outline, ht type rfl]
  · rfl

theorem Fields.outline_linked {fields : Fields} (h : fields.Proper)
    (ht : ∀ type ∈ fields.types, (type.linked resolve).outline = type.outline) :
    (Fields.listed (fields.linked resolve)).outline = fields.outline := by
  cases fields with
  | absent => rfl
  | listed fields =>
    simp only [linked, outline, Field.linkedAll_eq, Field.outlineAll_eq, List.map_map,
      Fields.listed.injEq]
    refine List.map_congr_left fun field hm => ?_
    exact Field.outline_linked fun type hs => ht type (Schema.mem_types_listed.2 ⟨field, hm, hs⟩)
  | other value => cases h

theorem Schema.outline_linked {schema : Schema} (h : schema.WellFormed) :
    (schema.linked resolve).outline = schema.outline := by
  induction schema using byChildren with
  | step schema ih =>
    have hc : ∀ child ∈ schema.children, (child.linked resolve).outline = child.outline :=
      fun child hm => ih child hm (h.child hm)
    cases schema with
    | union alternatives =>
      simp only [linked, outline, linkedAll_eq, outlineAll_eq, List.map_map, union.injEq]
      exact List.map_congr_left hc
    | record definition =>
      obtain ⟨before, fields, after⟩ := definition
      have hf := Fields.outline_linked h.proper.fields hc
      simp only [Record.fields_mk] at hf
      simp only [linked, outline, Record.linked, Record.outline, hf]
    | array before items after =>
      cases items with
      | none => rfl
      | some items => rw [linked, outline, outline, hc items (by simp)]
    | map before values after =>
      cases values with
      | none => rfl
      | some values => rw [linked, outline, outline, hc values (by simp)]
    | reference name => rfl
    | enum definition => rfl
    | primitive name wrapper => rfl
    | unknown value => rfl

end Linked

section Named

def Schema.KeepsOutline (parent : Json) (schema : Schema) : Prop :=
  schema.outline.toJson.Equal (schema.named parent).outline.toJson

variable {parent : Json}

theorem Field.outline_named {field : Field} (h : field.Proper)
    (ht : ∀ type, field.type? = some type → type.KeepsOutline parent) :
    field.outline.toJson.Equal (field.named parent).outline.toJson := by
  obtain ⟨before, type, after, rfl⟩ := h.exists_mk
  exact (ht type rfl).entry "type" before after

theorem Fields.outline_named {fields : Fields} (h : fields.Proper)
    (ht : ∀ type ∈ fields.types, type.KeepsOutline parent) :
    ∃ own named, fields.outline.toEntries = [("fields", .arr own)] ∧
      (Fields.listed (fields.named parent)).outline.toEntries = [("fields", .arr named)] ∧
      List.Forall₂ Json.Equal own named := by
  cases fields with
  | absent => exact ⟨[], [], rfl, rfl, .nil⟩
  | listed fields =>
    refine ⟨_, _, rfl, rfl, ?_⟩
    simp only [named, Field.namedAll_eq, Field.outlineAll_eq, Field.toJsons_eq, List.map_map,
      List.forall₂_map_left_iff, List.forall₂_map_right_iff]
    refine List.forall₂_same.2 fun field hm => ?_
    exact Field.outline_named (h field hm) fun type hs =>
      ht type (Schema.mem_types_listed.2 ⟨field, hm, hs⟩)
  | other value => cases h

/-- The fields of a record are the only entry that moves. -/
theorem Record.outline_named {definition : Record} (h : definition.fields.Proper)
    (ht : ∀ type ∈ definition.fields.types,
      type.KeepsOutline (definition.attributes.settle parent).1) :
    (Schema.record definition).KeepsOutline parent := by
  obtain ⟨before, fields, after⟩ := definition
  obtain ⟨own, named, ho, hn, he⟩ := Fields.outline_named h ht
  have hs := (Attributes.nameless_settle parent (before ++ after)).trans
    (Attributes.nameless_append before after)
  unfold Schema.KeepsOutline
  simp only [fields_mk, attributes_mk] at ho hn
  simp only [Schema.outline, Schema.named, outline, Record.named, Schema.toJson, toAttributes, ho,
    hn, hs, List.append_assoc, List.singleton_append]
  refine (Json.Equal.arr he).entry_perm "fields" before.nameless ?_
  refine List.Perm.append_left before.nameless ?_
  exact (List.perm_append_singleton _ _).symm

theorem Schema.outline_named {schema : Schema} (h : schema.WellFormed) (parent : Json) :
    schema.outline.toJson.Equal (schema.named parent).outline.toJson := by
  induction schema using byChildren generalizing parent with
  | step schema ih =>
    have hc : ∀ child ∈ schema.children, child.KeepsOutline (schema.innerSpace parent) :=
      fun child hm => ih child hm (h.child hm) _
    cases schema with
    | union alternatives =>
      simp only [outline, named, toJson, namedAll_eq, outlineAll_eq, toJsons_eq, List.map_map]
      refine .arr ?_
      simp only [List.forall₂_map_left_iff, List.forall₂_map_right_iff]
      exact List.forall₂_same.2 hc
    | enum definition =>
      simp only [outline, named, toJson, Attributes.nameless_settle]
      exact .refl _
    | record definition => exact Record.outline_named h.proper.fields hc
    | array before items after =>
      cases items with
      | none => exact .refl _
      | some items => exact (hc items (by simp)).entry "items" before after
    | map before values after =>
      cases values with
      | none => exact .refl _
      | some values => exact (hc values (by simp)).entry "values" before after
    | reference name => exact .refl _
    | primitive name wrapper => exact .refl _
    | unknown value => exact .refl _

end Named

end AvroBindings
