import AvroBindings.Proofs.Schema.Skeleton.Reading
import AvroBindings.Proofs.Skeleton
import Mathlib.Logic.Relation

/-! Documents that say the same in other words. A change of wording keeps to the skeleton, so that it
shows neither in the bindings nor in whether they can be generated. -/

namespace AvroBindings

/-- Where a type stands: alone, as a document, a field type, items or values, or among the
alternatives of a union. -/
inductive Standing where
  | alone
  | alternative

def Standing.skeleton : Standing → Schema → Schema
  | alone => Schema.skeleton
  | alternative => Schema.bare

/-- One change of wording, at a type or anywhere below it. -/
inductive Json.Reworded : Standing → Json → Json → Prop
  /-- A primitive is given by an object, with any attributes beside its name. -/
  | primitive {standing : Standing} (name : Primitive) {attributes : Attributes}
      (h : attributes.get? "type" = some (.str name.name)) :
      Reworded standing (.str name.name) (.obj attributes)
  /-- An object of one shape has other attributes, but for those that count. A record may turn into
  an error. -/
  | attributes {standing : Standing} {attributes other : Attributes} (shape : Shape)
      (ha : Shape.ofAttributes? attributes = some shape)
      (ho : Shape.ofAttributes? other = some shape)
      (h : ∀ key ∈ shape.keys, attributes.get? key = other.get? key) :
      Reworded standing (.obj attributes) (.obj other)
  /-- A field has other attributes, but for its name and its type. -/
  | field {standing : Standing} {attributes field other : Attributes} (before after : List Json)
      (ha : Shape.ofAttributes? attributes = some .record)
      (hf : attributes.get? "fields" = some (.arr (before ++ .obj field :: after)))
      (h : ∀ key ∈ ["name", "type"], field.get? key = other.get? key) :
      Reworded standing (.obj attributes)
        (.obj (attributes.set "fields" (.arr (before ++ .obj other :: after))))
  /-- A type that is neither a union nor null is given as a union of one type. -/
  | single {type : Json} (hu : (Schema.ofJson type).isUnion = false)
      (hn : (Schema.ofJson type).isNull = false) : Reworded .alone type (.arr [type])
  | inAlternative {standing : Standing} {old new : Json} (before after : List Json)
      (h : Reworded .alternative old new) :
      Reworded standing (.arr (before ++ old :: after)) (.arr (before ++ new :: after))
  | inItems {standing : Standing} {attributes : Attributes} {old new : Json}
      (ha : Shape.ofAttributes? attributes = some .array)
      (hi : attributes.get? "items" = some old) (h : Reworded .alone old new) :
      Reworded standing (.obj attributes) (.obj (attributes.set "items" new))
  | inValues {standing : Standing} {attributes : Attributes} {old new : Json}
      (ha : Shape.ofAttributes? attributes = some .map)
      (hv : attributes.get? "values" = some old) (h : Reworded .alone old new) :
      Reworded standing (.obj attributes) (.obj (attributes.set "values" new))
  | inField {standing : Standing} {attributes field : Attributes} {old new : Json}
      (before after : List Json) (ha : Shape.ofAttributes? attributes = some .record)
      (hf : attributes.get? "fields" = some (.arr (before ++ .obj field :: after)))
      (ht : field.get? "type" = some old) (h : Reworded .alone old new) :
      Reworded standing (.obj attributes)
        (.obj (attributes.set "fields" (.arr (before ++ .obj (field.set "type" new) :: after))))

namespace Schema

theorem skeleton_congr {left right : Schema} (h : left.bare = right.bare) (standing : Standing) :
    standing.skeleton left = standing.skeleton right := by
  cases standing with
  | alone => exact congrArg alone h
  | alternative => exact h

theorem bare_ofJson_field {attributes : Attributes} {field other : Json} (before after : List Json)
    (ha : Shape.ofAttributes? attributes = some .record)
    (hf : attributes.get? "fields" = some (.arr (before ++ field :: after)))
    (h : (Field.ofJson field).bare = (Field.ofJson other).bare) :
    (ofJson (.obj attributes)).bare =
      (ofJson (.obj (attributes.set "fields" (.arr (before ++ other :: after))))).bare := by
  have ho : Shape.ofAttributes? (attributes.set "fields" (.arr (before ++ other :: after))) =
      some .record := (Shape.ofAttributes?_set (by decide) _ attributes).trans ha
  have hn : Attributes.only ["name", "namespace"]
      (attributes.set "fields" (.arr (before ++ other :: after))) =
        attributes.only ["name", "namespace"] :=
    Attributes.only_congr fun key hk =>
      Attributes.get?_set_of_ne (by rintro rfl; simp at hk) _ attributes
  rw [bare_ofJson_record ha, bare_ofJson_record ho, hn, Record.bare_fieldsAt hf,
    Record.bare_fieldsAt (Attributes.get?_set_self ..)]
  simp [h]

end Schema

/-- A change of wording keeps to the skeleton. -/
theorem Json.Reworded.skeleton_eq {standing : Standing} {value other : Json}
    (h : Reworded standing value other) :
    standing.skeleton (.ofJson value) = standing.skeleton (.ofJson other) := by
  induction h with
  | primitive name h =>
    refine Schema.skeleton_congr ?_ _
    rw [Schema.ofJson, Schema.ofJson, Shape.ofAttributes?_primitive h, name.ofName?_name]
    rfl
  | attributes shape ha ho h => exact Schema.skeleton_congr (Schema.bare_ofJson_congr ha ho h) _
  | field before after ha hf h =>
    refine Schema.skeleton_congr (Schema.bare_ofJson_field before after ha hf ?_) _
    rw [Field.bare_ofJson, Field.bare_ofJson, Schema.skeletonAt_congr (h "type" (by simp)),
      Attributes.only_congr fun key hk => h key (List.mem_append_left ["type"] hk)]
  | single hu hn => exact (Schema.skeleton_single hu hn).symm
  | @inAlternative _ old new before after _ ih =>
    refine Schema.skeleton_congr ?_ _
    replace ih : (Schema.ofJson old).bare = (Schema.ofJson new).bare := ih
    simp [Schema.ofJson, Schema.ofJsons_eq, Schema.bare, Schema.bareAll_eq, ih]
  | @inItems _ attributes old new ha hi _ ih =>
    have hk : "items" ≠ "type" := by decide
    have ho := (Shape.ofAttributes?_set hk new attributes).trans ha
    refine Schema.skeleton_congr ?_ _
    rw [Schema.bare_ofJson_array ha, Schema.bare_ofJson_array ho, Schema.skeletonAt_set,
      Schema.skeletonAt_of_get? hi]
    exact congrArg (fun items => Schema.array [] (some items) []) ih
  | @inValues _ attributes old new ha hv _ ih =>
    have hk : "values" ≠ "type" := by decide
    have ho := (Shape.ofAttributes?_set hk new attributes).trans ha
    refine Schema.skeleton_congr ?_ _
    rw [Schema.bare_ofJson_map ha, Schema.bare_ofJson_map ho, Schema.skeletonAt_set,
      Schema.skeletonAt_of_get? hv]
    exact congrArg (fun values => Schema.map [] (some values) []) ih
  | inField before after ha hf ht _ ih =>
    refine Schema.skeleton_congr (Schema.bare_ofJson_field before after ha hf ?_) _
    rw [Field.bare_ofJson, Field.bare_ofJson, Schema.skeletonAt_set, Schema.skeletonAt_of_get? ht,
      Attributes.only_congr fun key hk =>
        Attributes.get?_set_of_ne (by rintro rfl; simp at hk) _ _]
    exact congrArg (fun type => Field.mk _ (some type) []) ih

theorem Json.skeleton_eq_of_eqvGen {value other : Json}
    (h : Relation.EqvGen (Reworded .alone) value other) :
    (Schema.ofJson value).skeleton = (Schema.ofJson other).skeleton := by
  induction h with
  | rel value other h => exact h.skeleton_eq
  | refl value => rfl
  | symm value other _ ih => exact ih.symm
  | trans first second third _ _ ih ih' => exact ih.trans ih'

/-- A well-formed document has the same bindings in other words, or generating them fails alike: the
error is the same, but that a union which is no type there is shown in its own words. -/
theorem Json.generate_reworded {value other : Json} (h : (Schema.ofJson value).WellFormed)
    (hr : Relation.EqvGen (Reworded .alone) value other) (options : Options) :
    Corresponds Eq (generate options (.ofJson value)).result
      (generate options (.ofJson other)).result := by
  have he := skeleton_eq_of_eqvGen hr
  have ho : (Schema.ofJson other).WellFormed :=
    Schema.wellFormed_skeleton_iff.1 (he ▸ Schema.wellFormed_skeleton_iff.2 h)
  have hs := Schema.generate_skeleton ho options
  rw [← he] at hs
  exact (Schema.generate_skeleton h options).trans (hs.symm fun _ _ => Eq.symm)
    fun _ _ _ => Eq.trans

def Json.numberField (number : Json) : Attributes :=
  [("name", .str "x"), ("type", .arr [.str "null", number])]

def Json.labelsField (label : Json) : Attributes :=
  [("name", .str "labels"), ("type", .obj [("type", .str "array"), ("items", label)])]

def Json.pointAttributes (kind : String) (number label : Json) : Attributes :=
  [("type", .str kind), ("name", .str "Point"),
    ("fields", .arr [.obj (numberField number), .obj (labelsField label)])]

def Json.point (kind : String) (number label : Json) : Json :=
  .obj (pointAttributes kind number label)

def Json.date : Json := .obj [("type", .str "int"), ("logicalType", .str "date")]

theorem Json.wellFormed_point :
    (Schema.ofJson (point "record" (.str "int") (.str "string"))).WellFormed := by
  refine Schema.wellFormed_record.2 ⟨⟨⟨⟨_, rfl⟩, .inl rfl⟩, fun field hm => ?_⟩, fun type hm => ?_⟩
  · obtain rfl | rfl := List.mem_pair.1 hm <;> exact ⟨⟨_, rfl⟩, ⟨_, rfl⟩⟩
  · obtain rfl | rfl := List.mem_pair.1 hm
    · exact Schema.wellFormed_union.2 fun alternative ha => by
        obtain rfl | rfl := List.mem_pair.1 ha <;> exact Schema.wellFormed_primitive _ _
    · exact Schema.wellFormed_array.2 (Schema.wellFormed_primitive _ _)

theorem Json.reworded_point :
    Relation.EqvGen (Reworded .alone) (point "record" (.str "int") (.str "string"))
      (.arr [point "error" date (.arr [.str "string"])]) := by
  have hn : Reworded .alone (point "record" (.str "int") (.str "string"))
      (point "record" date (.str "string")) :=
    @Reworded.inField .alone (pointAttributes "record" (.str "int") (.str "string"))
      (numberField (.str "int")) _ _ [] [.obj (labelsField (.str "string"))] rfl rfl rfl
      (.inAlternative [.str "null"] [] (.primitive .int rfl))
  have hl : Reworded .alone (point "record" date (.str "string"))
      (point "record" date (.arr [.str "string"])) :=
    @Reworded.inField .alone (pointAttributes "record" date (.str "string"))
      (labelsField (.str "string")) _ _ [.obj (numberField date)] [] rfl rfl rfl
      (.inItems rfl rfl (.single rfl rfl))
  have he : Reworded .alone (point "record" date (.arr [.str "string"]))
      (point "error" date (.arr [.str "string"])) :=
    .attributes .record rfl rfl (by simp [Shape.keys, Attributes.get?, pointAttributes])
  have hs : Reworded .alone (point "error" date (.arr [.str "string"]))
      (.arr [point "error" date (.arr [.str "string"])]) := .single rfl rfl
  exact .trans _ _ _ (.rel _ _ hn) (.trans _ _ _ (.rel _ _ hl) (.trans _ _ _ (.rel _ _ he)
    (.rel _ _ hs)))

theorem Json.generate_reworded_point :
    (Schema.ofJson (point "record" (.str "int") (.str "string"))).WellFormed ∧
    Relation.EqvGen (Reworded .alone) (point "record" (.str "int") (.str "string"))
      (.arr [point "error" date (.arr [.str "string"])]) ∧
    ∃ text,
      (generate {} (.ofJson (point "record" (.str "int") (.str "string")))).result = .ok text ∧
      (generate {} (.ofJson (.arr [point "error" date (.arr [.str "string"])]))).result =
        .ok text := by
  have hc := generate_reworded wellFormed_point reworded_point {}
  have hk : (generate {} (.ofJson (point "record" (.str "int") (.str "string")))).result.isOk := by
    decide +kernel
  exact ⟨wellFormed_point, reworded_point, hc.exists_of_isOk hk⟩

end AvroBindings
