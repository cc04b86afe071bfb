import AvroBindings.Proofs.Schema.Skeleton.Basic

/-! Naming definitions and replacing references can be done before or after taking the skeleton. -/

namespace AvroBindings

namespace Schema

theorem alone_named (parent : Json) (schema : Schema) :
    (schema.named parent).alone = schema.alone.named parent := by
  cases schema with
  | union alternatives =>
    match alternatives with
    | [] => rfl
    | [only] =>
      rw [named, namedAll, namedAll, alone, alone, isUnion_named, isNull_named]
      split <;> rfl
    | _ :: _ :: _ => rfl
  | array before items after => cases items <;> rfl
  | map before values after => cases values <;> rfl
  | _ => rfl

theorem alone_linked (resolve : String → String) (schema : Schema) :
    (schema.linked resolve).alone = schema.alone.linked resolve := by
  cases schema with
  | union alternatives =>
    match alternatives with
    | [] => rfl
    | [only] =>
      rw [linked, linkedAll, linkedAll, alone, alone, isUnion_linked, isNull_linked]
      split <;> rfl
    | _ :: _ :: _ => rfl
  | array before items after => cases items <;> rfl
  | map before values after => cases values <;> rfl
  | _ => rfl

end Schema

theorem Attributes.effectiveName_only {attributes : Attributes} {keys : List String}
    (hn : "name" ∈ keys) (hs : "namespace" ∈ keys) (parent : Json) :
    (attributes.only keys).effectiveName parent = attributes.effectiveName parent := by
  unfold effectiveName
  rw [name_only hn, space_only hs]

theorem Attributes.settle_only {attributes : Attributes} (h : attributes.Named) (keys : List String)
    (hn : "name" ∉ keys) (hs : "namespace" ∉ keys) {parent : Json} (hp : parent.IsSpace) :
    (attributes.only ("name" :: keys ++ ["namespace"])).settle parent =
      ((attributes.settle parent).1,
        (attributes.settle parent).2.only ("name" :: keys ++ ["namespace"])) := by
  obtain ⟨space, name, he, -, -⟩ := effectiveName_of_named h hp
  rw [settle_eq he, settle_eq ((effectiveName_only (by simp) (by simp) parent).trans he),
    only_rename h.titled.name_eq hn hs]

theorem Field.bare_named {field : Field} (h : field.Proper) {parent : Json}
    (ht : ∀ type, field.type? = some type → (type.named parent).bare = type.bare.named parent) :
    (field.named parent).bare = field.bare.named parent := by
  obtain ⟨before, type, after, rfl⟩ := h.exists_mk
  rw [named, bare, bare, named, ht type rfl, Schema.alone_named]

theorem Fields.bare_named {fields : Fields} (h : fields.Proper) {parent : Json}
    (ht : ∀ type ∈ fields.types, (type.named parent).bare = type.bare.named parent) :
    (Fields.listed (fields.named parent)).bare = .listed (fields.bare.named parent) := by
  cases fields with
  | absent => rfl
  | listed fields =>
    simp only [named, bare, Field.namedAll_eq, Field.bareAll_eq, List.map_map, Fields.listed.injEq]
    refine List.map_congr_left fun field hm => ?_
    exact Field.bare_named (h field hm) fun type hs =>
      ht type (Schema.mem_types_listed.2 ⟨field, hm, hs⟩)
  | other value => cases h

namespace Schema

/-- Naming and taking the skeleton can be done in both orders. -/
theorem bare_named {schema : Schema} (h : schema.WellFormed) {parent : Json}
    (hp : parent.IsSpace) : (schema.named parent).bare = schema.bare.named parent := by
  induction schema using byChildren generalizing parent with
  | step schema ih =>
    have hc : ∀ child ∈ schema.children, (child.named (schema.innerSpace parent)).bare =
        child.bare.named (schema.innerSpace parent) :=
      fun child hm => ih child hm (h.child hm) (isSpace_innerSpace h.proper hp)
    cases schema with
    | union alternatives =>
      simp only [named, bare, namedAll_eq, bareAll_eq, List.map_map, union.injEq]
      exact List.map_congr_left hc
    | enum definition =>
      have hs := Attributes.settle_only h.proper.named ["symbols"] (by decide) (by decide) hp
      exact congrArg (fun settled => enum ⟨settled.2⟩) hs.symm
    | record definition =>
      obtain ⟨before, fields, after⟩ := definition
      have hs := Attributes.settle_only h.proper.named [] (by decide) (by decide) hp
      have hf := Fields.bare_named h.proper.fields hc
      simp only [Record.fields_mk, Record.attributes_mk, innerSpace, List.cons_append,
        List.nil_append] at hs hf
      simp only [named, bare, Record.named, Record.bare, List.append_nil, hs, hf]
    | array before items after =>
      cases items with
      | none => rfl
      | some items =>
        have hi : (items.named parent).bare = items.bare.named parent := hc items (by simp)
        rw [named, bare, bare, named, hi, alone_named]
    | map before values after =>
      cases values with
      | none => rfl
      | some values =>
        have hv : (values.named parent).bare = values.bare.named parent := hc values (by simp)
        rw [named, bare, bare, named, hv, alone_named]
    | primitive name wrapper => rfl
    | reference name => rfl
    | unknown value => rfl

end Schema

section Linked

variable {resolve : String → String}

theorem Field.bare_linked {field : Field}
    (ht : ∀ type, field.type? = some type → (type.linked resolve).bare = type.bare.linked resolve) :
    (field.linked resolve).bare = field.bare.linked resolve := by
  obtain ⟨before, _ | type, after⟩ | value := field
  · rfl
  · rw [linked, bare, bare, linked, ht type rfl, Schema.alone_linked]
  · rfl

theorem Fields.bare_linked {fields : Fields}
    (ht : ∀ type ∈ fields.types, (type.linked resolve).bare = type.bare.linked resolve) :
    (Fields.listed (fields.linked resolve)).bare = .listed (fields.bare.linked resolve) := by
  cases fields with
  | absent => rfl
  | listed fields =>
    simp only [linked, bare, Field.linkedAll_eq, Field.bareAll_eq, List.map_map,
      Fields.listed.injEq]
    refine List.map_congr_left fun field hm => ?_
    exact Field.bare_linked fun type hs => ht type (Schema.mem_types_listed.2 ⟨field, hm, hs⟩)
  | other value => rfl

theorem Schema.bare_linked (schema : Schema) :
    (schema.linked resolve).bare = schema.bare.linked resolve := by
  induction schema using byChildren with
  | step schema ih =>
    cases schema with
    | union alternatives =>
      simp only [linked, bare, linkedAll_eq, bareAll_eq, List.map_map, union.injEq]
      exact List.map_congr_left ih
    | enum definition => rfl
    | record definition =>
      obtain ⟨before, fields, after⟩ := definition
      have hf := Fields.bare_linked ih
      simp only [Record.fields_mk] at hf
      simp only [linked, bare, Record.linked, Record.bare, hf]
    | array before items after =>
      cases items with
      | none => rfl
      | some items =>
        have hi : (items.linked resolve).bare = items.bare.linked resolve := ih items (by simp)
        rw [linked, bare, bare, linked, hi, alone_linked]
    | map before values after =>
      cases values with
      | none => rfl
      | some values =>
        have hv : (values.linked resolve).bare = values.bare.linked resolve := ih values (by simp)
        rw [linked, bare, bare, linked, hv, alone_linked]
    | primitive name wrapper => rfl
    | reference name => rfl
    | unknown value => rfl

end Linked

namespace Schema

theorem skeleton_named {schema : Schema} (h : schema.WellFormed) {parent : Json}
    (hp : parent.IsSpace) : (schema.named parent).skeleton = schema.skeleton.named parent := by
  rw [skeleton, bare_named h hp, alone_named, skeleton]

theorem skeleton_linked (resolve : String → String) (schema : Schema) :
    (schema.linked resolve).skeleton = schema.skeleton.linked resolve := by
  rw [skeleton, bare_linked, alone_linked, skeleton]

end Schema

end AvroBindings
