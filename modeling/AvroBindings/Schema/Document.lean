import AvroBindings.Schema.Basic

/-! Schemas read from JSON values and written back. Writing what was read gives the value that
was read. -/

namespace AvroBindings

/-- The shapes that the `type` of an object tells apart. -/
inductive Shape where
  | primitive (name : Primitive)
  | enum
  | record
  | array
  | map
deriving DecidableEq, Repr

def Shape.ofAttributes? (attributes : Attributes) : Option Shape :=
  match attributes.get? "type" with
  | some (.str type) =>
    match Primitive.ofName? type with
    | some name => some (.primitive name)
    | none =>
      match type with
      | "enum" => some .enum
      | "record" | "error" => some .record
      | "array" => some .array
      | "map" => some .map
      | _ => none
  | _ => none

mutual
def Schema.ofJson : Json → Schema
  | .str name =>
    match Primitive.ofName? name with
    | some primitive => .primitive primitive none
    | none => .reference name
  | .arr alternatives => .union (Schema.ofJsons alternatives)
  | .obj attributes =>
    match Shape.ofAttributes? attributes with
    | some (.primitive name) => .primitive name (some attributes)
    | some .enum => .enum ⟨attributes⟩
    | some .record => .record (Record.ofAttributes attributes)
    | some .array =>
      let (before, items, after) := Schema.atKey "items" attributes
      .array before items after
    | some .map =>
      let (before, values, after) := Schema.atKey "values" attributes
      .map before values after
    | none => .unknown (.obj attributes)
  | value => .unknown value

def Schema.ofJsons : List Json → List Schema
  | [] => []
  | value :: rest => Schema.ofJson value :: Schema.ofJsons rest

/-- The schema at the first entry with a key, and the entries before and after it. -/
def Schema.atKey (key : String) : List (String × Json) → Attributes × Option Schema × Attributes
  | [] => ([], none, [])
  | (name, value) :: rest =>
    if name = key then ([], some (Schema.ofJson value), rest)
    else
      let (before, schema, after) := Schema.atKey key rest
      ((name, value) :: before, schema, after)

def Record.ofAttributes : List (String × Json) → Record
  | [] => .mk [] .absent []
  | (name, value) :: rest =>
    if name = "fields" then .mk [] (Fields.ofJson value) rest
    else
      match Record.ofAttributes rest with
      | .mk before fields after => .mk ((name, value) :: before) fields after

def Fields.ofJson : Json → Fields
  | .arr fields => .listed (Field.ofJsons fields)
  | value => .other value

def Field.ofJsons : List Json → List Field
  | [] => []
  | value :: rest => Field.ofJson value :: Field.ofJsons rest

def Field.ofJson : Json → Field
  | .obj attributes =>
    let (before, type, after) := Schema.atKey "type" attributes
    .mk before type after
  | value => .malformed value
end

mutual
def Schema.toJson : Schema → Json
  | .primitive name none => .str name.name
  | .primitive _ (some wrapper) => .obj wrapper
  | .reference name => .str name
  | .union alternatives => .arr (Schema.toJsons alternatives)
  | .enum definition => .obj definition.attributes
  | .record definition => .obj definition.toAttributes
  | .array before (some items) after => .obj (before ++ ("items", items.toJson) :: after)
  | .array before none after => .obj (before ++ after)
  | .map before (some values) after => .obj (before ++ ("values", values.toJson) :: after)
  | .map before none after => .obj (before ++ after)
  | .unknown value => value

def Schema.toJsons : List Schema → List Json
  | [] => []
  | schema :: rest => schema.toJson :: Schema.toJsons rest

def Record.toAttributes : Record → Attributes
  | .mk before fields after => before ++ fields.toEntries ++ after

def Fields.toEntries : Fields → Attributes
  | .absent => []
  | .listed fields => [("fields", .arr (Field.toJsons fields))]
  | .other value => [("fields", value)]

def Field.toJsons : List Field → List Json
  | [] => []
  | field :: rest => field.toJson :: Field.toJsons rest

def Field.toJson : Field → Json
  | .mk before (some type) after => .obj (before ++ ("type", type.toJson) :: after)
  | .mk before none after => .obj (before ++ after)
  | .malformed value => value
end

def Definition.toJson (definition : Definition) : Json := definition.schema.toJson

def Schema.joinAtKey (key : String) : Attributes × Option Schema × Attributes → Attributes
  | (before, some schema, after) => before ++ (key, schema.toJson) :: after
  | (before, none, after) => before ++ after

mutual
theorem Schema.toJson_ofJson (value : Json) : (Schema.ofJson value).toJson = value := by
  match value with
  | .null | .bool _ | .int _ | .float _ => rfl
  | .str name =>
    rw [Schema.ofJson]
    split
    next h => simp [Schema.toJson, Primitive.name_of_ofName? h]
    next => rfl
  | .arr alternatives => simp [Schema.ofJson, Schema.toJson, Schema.toJsons_ofJsons alternatives]
  | .obj attributes =>
    rw [Schema.ofJson]
    split
    next => rfl
    next => rfl
    next => simp [Schema.toJson, Record.toAttributes_ofAttributes attributes]
    next =>
      have h := Schema.joinAtKey_atKey "items" attributes
      revert h
      rcases Schema.atKey "items" attributes with ⟨before, _ | items, after⟩ <;>
        simp [Schema.joinAtKey, Schema.toJson]
    next =>
      have h := Schema.joinAtKey_atKey "values" attributes
      revert h
      rcases Schema.atKey "values" attributes with ⟨before, _ | values, after⟩ <;>
        simp [Schema.joinAtKey, Schema.toJson]
    next => rfl

theorem Schema.toJsons_ofJsons (values : List Json) :
    Schema.toJsons (Schema.ofJsons values) = values := by
  match values with
  | [] => rfl
  | value :: rest =>
    simp [Schema.ofJsons, Schema.toJsons, Schema.toJson_ofJson value, Schema.toJsons_ofJsons rest]

theorem Schema.joinAtKey_atKey (key : String) (entries : List (String × Json)) :
    Schema.joinAtKey key (Schema.atKey key entries) = entries := by
  match entries with
  | [] => rfl
  | (name, value) :: rest =>
    rw [Schema.atKey]
    split
    next h => simp [Schema.joinAtKey, Schema.toJson_ofJson value, h]
    next =>
      have h := Schema.joinAtKey_atKey key rest
      revert h
      rcases Schema.atKey key rest with ⟨before, _ | schema, after⟩ <;>
        simp [Schema.joinAtKey]

theorem Record.toAttributes_ofAttributes (entries : List (String × Json)) :
    (Record.ofAttributes entries).toAttributes = entries := by
  match entries with
  | [] => rfl
  | (name, value) :: rest =>
    rw [Record.ofAttributes]
    split
    next h => simp [Record.toAttributes, Fields.toEntries_ofJson value, h]
    next =>
      have h := Record.toAttributes_ofAttributes rest
      revert h
      rcases Record.ofAttributes rest with ⟨before, fields, after⟩
      simp [Record.toAttributes]

theorem Fields.toEntries_ofJson (value : Json) :
    (Fields.ofJson value).toEntries = [("fields", value)] := by
  match value with
  | .null | .bool _ | .int _ | .float _ | .str _ | .obj _ => rfl
  | .arr fields => simp [Fields.ofJson, Fields.toEntries, Field.toJsons_ofJsons fields]

theorem Field.toJsons_ofJsons (values : List Json) :
    Field.toJsons (Field.ofJsons values) = values := by
  match values with
  | [] => rfl
  | value :: rest =>
    simp [Field.ofJsons, Field.toJsons, Field.toJson_ofJson value, Field.toJsons_ofJsons rest]

theorem Field.toJson_ofJson (value : Json) : (Field.ofJson value).toJson = value := by
  match value with
  | .null | .bool _ | .int _ | .float _ | .str _ | .arr _ => rfl
  | .obj attributes =>
    have h := Schema.joinAtKey_atKey "type" attributes
    revert h
    rw [Field.ofJson]
    rcases Schema.atKey "type" attributes with ⟨before, _ | type, after⟩ <;>
      simp [Schema.joinAtKey, Field.toJson]
end

end AvroBindings
