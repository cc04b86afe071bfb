import AvroBindings.Proofs.Collection
import AvroBindings.Proofs.Deciders

/-! Effective names by path. Naming a document threads a namespace from the root down to each
definition; the same namespace is found from the definition outward, as the nearest that it or a
record around it decides. What a document registers are the full names found in this way. -/

namespace AvroBindings

def Definition.named (parent : Json) : Definition → Definition
  | enum definition => enum ⟨(definition.attributes.settle parent).2⟩
  | record definition => record (definition.named parent)

theorem Definition.schema_named (parent : Json) (definition : Definition) :
    (definition.named parent).schema = definition.schema.named parent := by
  cases definition <;> rfl

theorem Definition.attributes_named (parent : Json) (definition : Definition) :
    (definition.named parent).attributes = (definition.attributes.settle parent).2 := by
  cases definition with
  | enum definition => rfl
  | record definition => exact definition.attributes_named parent

theorem Definition.schema_injective {left right : Definition} (h : left.schema = right.schema) :
    left = right := by
  cases left <;> cases right <;> cases h <;> rfl

namespace Schema

open Attributes (Nearest)

/-- The attributes of a schema that definitions below it can take a namespace from. -/
def scope : Schema → List Attributes
  | record definition => [definition.attributes]
  | _ => []

/-- The attributes of the records around the end of a path, from the innermost outward. -/
def enclosing (schema : Schema) : List Nat → List Attributes
  | [] => []
  | step :: path => schema.children[step]?.elim [] (·.enclosing path) ++ schema.scope

/-- The namespace and the name that the definition at the end of a path has in effect. The
namespace is the nearest that is decided by the definition itself and the records around it, and the
name is the last segment of its own. -/
def Effective (document : Schema) (path : List Nat) (space : Option String) (name : String) : Prop :=
  ∃ (definition : Definition) (own : String), document.at? path = some definition.schema ∧
    definition.attributes.name = .ok (.str own) ∧ LastSegment name own ∧
    Nearest none (definition.attributes :: document.enclosing path) space

def Defines (document : Schema) (full : String) : Prop :=
  ∃ path space name, document.Effective path space name ∧ full = qualify space name

theorem mem_positions_iff_at? {schema type : Schema} :
    type ∈ schema.positions ↔ ∃ path, schema.at? path = some type := by
  have hm : type ∈ schema.positions ↔ some type ∈ schema.positions.map some := by simp
  rw [hm, ← map_at?_paths, List.mem_map]
  exact exists_congr fun path => and_iff_right_of_imp fun ha => mem_paths.2 ⟨type, ha⟩

theorem WellFormed.named_definition {document : Schema} (h : document.WellFormed)
    {path : List Nat} {definition : Definition} (hd : document.at? path = some definition.schema) :
    definition.attributes.Named := by
  have hp := h _ (mem_positions_iff_at?.2 ⟨path, hd⟩)
  cases definition with
  | enum own => exact hp.named
  | record own => exact hp.named

theorem Effective.unique {document : Schema} {path : List Nat} {space other : Option String}
    {name short : String} (h : document.Effective path space name)
    (ho : document.Effective path other short) : space = other ∧ name = short := by
  obtain ⟨definition, own, hd, hn, hl, hs⟩ := h
  obtain ⟨definition', own', hd', hn', hl', hs'⟩ := ho
  rw [hd, Option.some.injEq] at hd'
  cases Definition.schema_injective hd'
  rw [hn, Except.ok.injEq, Json.str.injEq] at hn'
  subst hn'
  exact ⟨hs.unique hs', hl.unique hl'⟩

theorem innerSpace_of_nearest {schema : Schema} (h : schema.Proper) {outer space : Option String}
    (hn : Nearest outer schema.scope space) : schema.innerSpace (.space outer) = .space space := by
  cases schema with
  | record definition =>
    obtain ⟨own, name, -, -, he⟩ := Attributes.settle_of_nearest h.named hn
    rw [innerSpace, he]
  | _ =>
    cases hn
    rfl

/-- A whole path down: what stands at its end is named below the nearest namespace that is decided
around it. -/
theorem at?_named_of_nearest {schema : Schema} (h : schema.WellFormed) {path : List Nat}
    {outer space : Option String} (hn : Nearest outer (schema.enclosing path) space) :
    (schema.named (.space outer)).at? path = (schema.at? path).map (named (.space space)) := by
  -- the namespace threaded down is that of the outer records, so it changes with each step
  induction path generalizing schema outer with
  | nil =>
    cases hn
    rfl
  | cons step path ih =>
    rw [at?, at?, children_named, List.getElem?_map]
    cases hc : schema.children[step]? with
    | none => rfl
    | some child =>
      rw [enclosing, hc] at hn
      obtain ⟨between, hb, hi⟩ := Nearest.append_iff.1 hn
      rw [innerSpace_of_nearest h.proper hb]
      exact ih (h.child (List.mem_of_getElem? hc)) hi

theorem exists_effective {document : Schema} (h : document.WellFormed) {path : List Nat}
    {definition : Definition} (hd : document.at? path = some definition.schema) :
    ∃ space name renamed, document.Effective path space name ∧
      (document.named .null).at? path = some (Definition.schema renamed) ∧
      renamed.attributes = definition.attributes.rename (.space space) (.str name) := by
  obtain ⟨space, hn⟩ :=
    Nearest.exists_nearest none (definition.attributes :: document.enclosing path)
  have hs : Nearest none ([definition.attributes] ++ document.enclosing path) space := hn
  obtain ⟨around, ha, ho⟩ := Nearest.append_iff.1 hs
  obtain ⟨own, name, hw, hl, hs⟩ := Attributes.settle_of_nearest (h.named_definition hd) ho
  refine ⟨space, name, definition.named (.space around), ⟨definition, own, hd, hw, hl, hn⟩, ?_, ?_⟩
  · rw [Definition.schema_named]
    have hp := at?_named_of_nearest h ha
    rw [hd] at hp
    exact hp
  · rw [Definition.attributes_named, hs]

theorem Effective.ne_empty {document : Schema} {path : List Nat} {space : Option String}
    {name : String} (h : document.Effective path space name) : space ≠ some "" := by
  obtain ⟨_, _, -, -, -, hn⟩ := h
  exact hn.ne_empty

theorem exists_origin {type : Schema} {space : Json} {definition : Definition}
    (h : type.named space = definition.schema) : ∃ origin : Definition, type = origin.schema := by
  cases type with
  | enum own => exact ⟨.enum own, rfl⟩
  | record own => exact ⟨.record own, rfl⟩
  | array before items after => cases items <;> cases definition <;> cases h
  | map before values after => cases values <;> cases definition <;> cases h
  | _ => cases definition <;> cases h

theorem effective_of_named {document : Schema} (h : document.WellFormed) {path : List Nat}
    {definition : Definition} (hd : (document.named .null).at? path = some definition.schema) :
    ∃ space name, document.Effective path space name ∧
      definition.attributes.qualifiedText = qualify space name := by
  obtain ⟨below, hb⟩ := at?_named .null document path
  rw [hd] at hb
  obtain ⟨type, ht, hn⟩ := Option.map_eq_some_iff.1 hb.symm
  obtain ⟨origin, rfl⟩ := exists_origin hn
  obtain ⟨space, name, renamed, he, hr, ha⟩ := exists_effective h ht
  rw [hd, Option.some.injEq] at hr
  cases Definition.schema_injective hr
  exact ⟨space, name, he, by rw [ha, Attributes.qualifiedText_rename _ he.ne_empty]⟩

theorem forall₂_fullNames {document : Schema} (h : document.WellFormed) :
    ∃ paths : List (List Nat), paths.Pairwise (· < ·) ∧
      (∀ path, path ∈ paths ↔
        ∃ definition : Definition, document.at? path = some definition.schema) ∧
      List.Forall₂ (fun path full => ∃ space name, document.Effective path space name ∧
        full = qualify space name) paths (document.named .null).fullNames := by
  obtain ⟨paths, hp, hm, he⟩ := lists_defined (document.named .null)
  refine ⟨paths, hp, fun path => ?_, ?_⟩
  · rw [hm]
    constructor
    · rintro ⟨definition, hd⟩
      obtain ⟨space, name, ⟨origin, -, ho, -⟩, -⟩ := effective_of_named h hd
      exact ⟨origin, ho⟩
    · rintro ⟨definition, hd⟩
      obtain ⟨space, name, renamed, -, hr, -⟩ := exists_effective h hd
      exact ⟨renamed, hr⟩
  · have hf : List.Forall₂ (fun path definition => (document.named .null).at? path =
        some (Definition.schema definition)) paths (document.named .null).defined :=
      List.forall₂_map_left_iff.1 (List.forall₂_map_right_iff.1
        (he ▸ List.forall₂_refl (paths.map (document.named .null).at?)))
    exact List.forall₂_map_right_iff.2 (hf.imp fun path definition => effective_of_named h)

theorem mem_registry_iff {document : Schema} (h : document.WellFormed) {full : String} :
    full ∈ document.registry.names ↔ document.Defines full := by
  rw [mem_registry, fullNames_augmented]
  constructor
  · intro hf
    obtain ⟨definition, hd, rfl⟩ := List.mem_map.1 hf
    obtain ⟨path, hp⟩ := mem_positions_iff_at?.1 (mem_defined.1 hd)
    obtain ⟨space, name, he, hq⟩ := effective_of_named h hp
    exact ⟨path, space, name, he, hq⟩
  · rintro ⟨path, space, name, he, rfl⟩
    obtain ⟨definition, -, hd, -⟩ := id he
    obtain ⟨other, short, renamed, ho, hr, ha⟩ := exists_effective h hd
    obtain ⟨rfl, rfl⟩ := he.unique ho
    rw [← Attributes.qualifiedText_rename definition.attributes he.ne_empty, ← ha]
    exact List.mem_map_of_mem (mem_defined.2 (mem_positions_iff_at?.2 ⟨path, hr⟩))

/-- Naming a well-formed document gives every definition its effective namespace and name, and a
name without dots. It registers the full names of the definitions, one for each in the order of a
depth-first walk. -/
theorem effective_names {document : Schema} (h : document.WellFormed) :
    ∃ named names, document.assign .null = ⟨names, .ok named⟩ ∧
      (∀ path (definition : Definition), document.at? path = some definition.schema →
        ∃ (renamed : Definition) (space : Option String) (name : String),
          named.at? path = some renamed.schema ∧ renamed.attributes.space = .space space ∧
          renamed.attributes.name = .ok (.str name) ∧ '.' ∉ name.toList ∧
          ∀ other short, document.Effective path other short ↔ other = space ∧ short = name) ∧
      (∃ paths : List (List Nat), paths.Pairwise (· < ·) ∧
        (∀ path, path ∈ paths ↔
          ∃ definition : Definition, document.at? path = some definition.schema) ∧
        List.Forall₂ (fun path full => ∃ space name, document.Effective path space name ∧
          full = qualify space name) paths names) ∧
      ∀ full, full ∈ (document.augment {}).1.names ↔ full ∈ names := by
  refine ⟨_, _, assign_eq h .none, ?_, forall₂_fullNames h, fun full => ?_⟩
  · intro path definition hd
    obtain ⟨space, name, renamed, he, hr, ha⟩ := exists_effective h hd
    obtain ⟨_, _, -, -, hl, -⟩ := id he
    refine ⟨renamed, space, name, hr, ?_, ?_, hl.undotted, fun other short => ?_⟩
    · rw [ha, Attributes.space_rename]
    · rw [ha, Attributes.name_rename]
    · constructor
      · exact fun ho => ho.unique he
      · rintro ⟨rfl, rfl⟩
        exact he
  · rw [augment_fst h, mem_registry, fullNames_augmented]

def resetting : Schema :=
  let mark : Enum := ⟨[("type", .str "enum"), ("name", .str "Mark"), ("namespace", .null)]⟩
  let marks : Schema := .array [("type", .str "array")]
    (some (.union [.primitive .null none, .enum mark])) []
  let plain : Record := .mk [("type", .str "record"), ("name", .str "Plain"),
    ("namespace", .str "")] (.listed [.mk [("name", .str "marks")] (some marks) []]) []
  .record (.mk [("type", .str "record"), ("name", .str "a.b.Outer"), ("namespace", .str "c")]
    (.listed [.mk [("name", .str "plain")] (some (.record plain)) []]) [])

theorem wellFormed_resetting : resetting.WellFormed := by
  refine wellFormed_record.2 ⟨⟨⟨⟨"a.b.Outer", rfl⟩, .inr ⟨"c", rfl⟩⟩, ?_⟩, ?_⟩
  · simp only [Record.fields_mk, Fields.Proper, List.forall_mem_cons]
    exact ⟨⟨⟨_, rfl⟩, ⟨_, rfl⟩⟩, by simp⟩
  · simp only [Record.fields_mk, Fields.types, List.filterMap_cons, Field.type?,
      List.filterMap_nil, List.forall_mem_cons]
    refine ⟨wellFormed_record.2 ⟨⟨⟨⟨"Plain", rfl⟩, .inr ⟨"", rfl⟩⟩, ?_⟩, ?_⟩, by simp⟩
    · simp only [Record.fields_mk, Fields.Proper, List.forall_mem_cons]
      exact ⟨⟨⟨_, rfl⟩, ⟨_, rfl⟩⟩, by simp⟩
    · simp only [Record.fields_mk, Fields.types, List.filterMap_cons, Field.type?,
        List.filterMap_nil, List.forall_mem_cons]
      refine ⟨?_, by simp⟩
      rw [wellFormed_array, wellFormed_union]
      simp only [List.forall_mem_cons]
      exact ⟨wellFormed_primitive _ _, wellFormed_enum.2 ⟨⟨⟨"Mark", rfl⟩, .inl rfl⟩, .inl rfl⟩,
        by simp⟩

theorem effective_names_resetting :
    resetting.WellFormed ∧ ∃ named, (resetting.assign .null).result = .ok named ∧
      ∃ renamed : Definition, named.at? [0, 0, 0, 1] = some renamed.schema ∧
        renamed.attributes.space = .null ∧ renamed.attributes.name = .ok (.str "Mark") ∧
        resetting.Effective [0, 0, 0, 1] none "Mark" := by
  have he : resetting.Effective [0, 0, 0, 1] none "Mark" := by
    refine ⟨.enum _, "Mark", rfl, rfl, ⟨by decide, .inl rfl⟩,
      .passed ?_ (@Nearest.decided _ _ _ "" ?_)⟩
    · rintro text (⟨hn, hd⟩ | ⟨-, -, hs⟩)
      · cases hn
        exact absurd hd.dot_mem (by decide)
      · cases hs
    · exact @Attributes.Decides.byAttribute _ "Plain" _ rfl (by decide) rfl
  obtain ⟨named, names, ha, hd, -⟩ := effective_names wellFormed_resetting
  obtain ⟨renamed, space, name, hr, hs, hn, -, hu⟩ := hd [0, 0, 0, 1] (.enum _) rfl
  obtain ⟨rfl, rfl⟩ := (hu none "Mark").1 he
  exact ⟨wellFormed_resetting, named, by rw [ha], renamed, hr, hs, hn, he⟩

end Schema

end AvroBindings
