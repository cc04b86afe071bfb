import AvroBindings.Proofs.Schema.Skeleton.Basic

/-! The skeleton of a schema that is read from a JSON value, told by the attributes of the value. The
order of the attributes, and whatever stands beside those that count, make no difference. -/

namespace AvroBindings

/-- The attributes that count for a shape, beside the `type`. -/
def Shape.keys : Shape → List String
  | primitive _ => []
  | enum => ["name", "symbols", "namespace"]
  | record => ["name", "namespace", "fields"]
  | array => ["items"]
  | map => ["values"]

theorem Shape.ofAttributes?_congr {attributes other : Attributes}
    (h : attributes.get? "type" = other.get? "type") :
    ofAttributes? attributes = ofAttributes? other := by
  unfold ofAttributes?
  rw [h]

theorem Shape.ofAttributes?_set {key : String} (hk : key ≠ "type") (value : Json)
    (attributes : Attributes) : ofAttributes? (attributes.set key value) = ofAttributes? attributes :=
  ofAttributes?_congr (Attributes.get?_set_of_ne hk value attributes)

theorem Shape.ofAttributes?_primitive {attributes : Attributes} {name : Primitive}
    (h : attributes.get? "type" = some (.str name.name)) :
    ofAttributes? attributes = some (.primitive name) := by
  unfold ofAttributes?
  rw [h]
  simp only [Primitive.ofName?_name]

theorem Schema.ofJsons_eq (values : List Json) : ofJsons values = values.map ofJson := by
  induction values with
  | nil => rfl
  | cons value rest ih => rw [ofJsons, ih, List.map_cons]

theorem Field.ofJsons_eq (values : List Json) : ofJsons values = values.map ofJson := by
  induction values with
  | nil => rfl
  | cons value rest ih => rw [ofJsons, ih, List.map_cons]

namespace Schema

theorem atKey_eq (key : String) (attributes : Attributes) :
    (atKey key attributes).2.1 = (attributes.get? key).map ofJson := by
  induction attributes with
  | nil => rfl
  | cons entry rest ih =>
    obtain ⟨name, value⟩ := entry
    rw [atKey, Attributes.get?]
    split
    · rfl
    · exact ih

theorem get?_atKey {key other : String} (h : other ≠ key) (attributes : Attributes) :
    Attributes.get? other ((atKey key attributes).1 ++ (atKey key attributes).2.2) =
      attributes.get? other := by
  induction attributes with
  | nil => rfl
  | cons entry rest ih =>
    obtain ⟨name, value⟩ := entry
    rw [atKey, Attributes.get?]
    split
    next hn =>
      rw [if_neg fun ho => h (ho.symm.trans hn)]
      rfl
    next =>
      change Attributes.get? other ((name, value) :: ((atKey key rest).1 ++ _)) = _
      rw [Attributes.get?, ih]

def skeletonAt (key : String) (attributes : Attributes) : Option Schema :=
  (attributes.get? key).map fun value => (ofJson value).skeleton

theorem skeletonAt_eq (key : String) (attributes : Attributes) :
    skeletonAt key attributes = (atKey key attributes).2.1.map skeleton := by
  rw [atKey_eq, Option.map_map]
  rfl

theorem skeletonAt_congr {key : String} {attributes other : Attributes}
    (h : attributes.get? key = other.get? key) :
    skeletonAt key attributes = skeletonAt key other := by
  rw [skeletonAt, h, skeletonAt]

theorem skeletonAt_set (key : String) (value : Json) (attributes : Attributes) :
    skeletonAt key (attributes.set key value) = some (ofJson value).skeleton := by
  rw [skeletonAt, Attributes.get?_set_self]
  rfl

theorem skeletonAt_of_get? {key : String} {value : Json} {attributes : Attributes}
    (h : attributes.get? key = some value) :
    skeletonAt key attributes = some (ofJson value).skeleton := by
  rw [skeletonAt, h]
  rfl

end Schema

namespace Record

def fieldsAt (attributes : Attributes) : Fields :=
  match attributes.get? "fields" with
  | none => .absent
  | some value => .ofJson value

theorem fields_ofAttributes (attributes : Attributes) :
    (ofAttributes attributes).fields = fieldsAt attributes := by
  induction attributes with
  | nil => rfl
  | cons entry rest ih =>
    obtain ⟨name, value⟩ := entry
    rw [ofAttributes, fieldsAt, Attributes.get?]
    split
    · rfl
    · refine Eq.trans ?_ ih
      cases ofAttributes rest
      rfl

theorem bare_fieldsAt {attributes : Attributes} {fields : List Json}
    (h : attributes.get? "fields" = some (.arr fields)) :
    (fieldsAt attributes).bare = .listed (fields.map fun field => (Field.ofJson field).bare) := by
  unfold fieldsAt
  rw [h]
  simp only [Fields.ofJson, Fields.bare, Field.ofJsons_eq, Field.bareAll_eq, List.map_map]
  rfl

theorem get?_ofAttributes {key : String} (h : key ≠ "fields") (attributes : Attributes) :
    (ofAttributes attributes).attributes.get? key = attributes.get? key := by
  induction attributes with
  | nil => rfl
  | cons entry rest ih =>
    obtain ⟨name, value⟩ := entry
    rw [ofAttributes, Attributes.get?]
    split
    next hn =>
      rw [if_neg fun hk => h (hk.symm.trans hn)]
      rfl
    next =>
      cases hr : ofAttributes rest with
      | mk before fields after =>
        rw [hr] at ih
        change Attributes.get? key ((name, value) :: (before ++ after)) = _
        rw [Attributes.get?, ← ih]
        rfl

theorem bare_ofAttributes (attributes : Attributes) :
    (ofAttributes attributes).bare =
      .mk (attributes.only ["name", "namespace"]) (fieldsAt attributes).bare [] := by
  have ha : (ofAttributes attributes).attributes.only ["name", "namespace"] =
      attributes.only ["name", "namespace"] :=
    Attributes.only_congr fun key hk => get?_ofAttributes (by rintro rfl; simp at hk) attributes
  rw [← ha, ← fields_ofAttributes]
  cases ofAttributes attributes
  rfl

end Record

theorem Field.bare_ofJson (attributes : Attributes) :
    (ofJson (.obj attributes)).bare =
      .mk (attributes.only ["name"]) (Schema.skeletonAt "type" attributes) [] := by
  have ha : Attributes.only ["name"]
      ((Schema.atKey "type" attributes).1 ++ (Schema.atKey "type" attributes).2.2) =
        attributes.only ["name"] :=
    Attributes.only_congr fun key hk => Schema.get?_atKey (by rintro rfl; simp at hk) attributes
  rw [← ha, Schema.skeletonAt_eq, ofJson]
  rcases Schema.atKey "type" attributes with ⟨before, _ | type, after⟩ <;> rfl

namespace Schema

theorem bare_ofJson_array {attributes : Attributes}
    (h : Shape.ofAttributes? attributes = some .array) :
    (ofJson (.obj attributes)).bare = .array [] (skeletonAt "items" attributes) [] := by
  rw [ofJson, h, skeletonAt_eq]
  rcases atKey "items" attributes with ⟨before, _ | items, after⟩ <;> rfl

theorem bare_ofJson_map {attributes : Attributes}
    (h : Shape.ofAttributes? attributes = some .map) :
    (ofJson (.obj attributes)).bare = .map [] (skeletonAt "values" attributes) [] := by
  rw [ofJson, h, skeletonAt_eq]
  rcases atKey "values" attributes with ⟨before, _ | values, after⟩ <;> rfl

theorem bare_ofJson_record {attributes : Attributes}
    (h : Shape.ofAttributes? attributes = some .record) :
    (ofJson (.obj attributes)).bare = .record
      (.mk (attributes.only ["name", "namespace"]) (Record.fieldsAt attributes).bare []) := by
  rw [ofJson, h]
  exact congrArg record (Record.bare_ofAttributes attributes)

/-- What counts for the shape of an object decides its skeleton. -/
theorem bare_ofJson_congr {attributes other : Attributes} {shape : Shape}
    (ha : Shape.ofAttributes? attributes = some shape)
    (ho : Shape.ofAttributes? other = some shape)
    (h : ∀ key ∈ shape.keys, attributes.get? key = other.get? key) :
    (ofJson (.obj attributes)).bare = (ofJson (.obj other)).bare := by
  cases shape with
  | primitive name =>
    rw [ofJson, ha, ofJson, ho]
    rfl
  | enum =>
    rw [ofJson, ha, ofJson, ho]
    exact congrArg (fun attributes => enum ⟨attributes⟩) (Attributes.only_congr h)
  | record =>
    have hf : Record.fieldsAt attributes = Record.fieldsAt other := by
      unfold Record.fieldsAt
      rw [h "fields" (by decide)]
    have hn : attributes.only ["name", "namespace"] = other.only ["name", "namespace"] :=
      Attributes.only_congr fun key hk => h key (List.mem_append_left ["fields"] hk)
    rw [bare_ofJson_record ha, bare_ofJson_record ho, hf, hn]
  | array =>
    rw [bare_ofJson_array ha, bare_ofJson_array ho, skeletonAt_congr (h "items" (by decide))]
  | map => rw [bare_ofJson_map ha, bare_ofJson_map ho, skeletonAt_congr (h "values" (by decide))]

end Schema

end AvroBindings
