import AvroBindings.Proofs.Code.TypeShapes

/-! The shapes that schemas have as types, and the text of a type expression as the text of the
shape. Schemas with the same text have the same shape, so that the brackets of an array always
belong to its whole item type. -/

namespace AvroBindings

def Definition.shape? (options : Options) : Definition → Option TypeShape
  | enum own =>
    (own.attributes.qualifiedDeclarationName options).toOption.map fun name => .named name.text
  | record own =>
    (own.attributes.qualifiedInterfaceName options).toOption.map fun name => .named name.text

namespace Schema

mutual
/-- The shape of a schema. A reference has that of what it refers to, and a union of one
alternative that of the alternative. -/
def shape? (context : Context) : Schema → Option TypeShape
  | .primitive name _ => some (.builtin name.builtin)
  | .reference name => do (← (context.resolve (.str name)).toOption).shape? context.options
  | .enum definition => (Definition.enum definition).shape? context.options
  | .record definition => (Definition.record definition).shape? context.options
  | .array _ (some items) _ => (shape? context items).map .array
  | .array _ none _ => none
  | .map _ (some values) _ => (shape? context values).map .index
  | .map _ none _ => none
  | .union [only] => shape? context only
  | .union alternatives => (shapes? context alternatives).map .union
  | .unknown _ => none

def shapes? (context : Context) : List Schema → Option (List TypeShape)
  | [] => some []
  | schema :: rest => do return (← shape? context schema) :: (← shapes? context rest)
end

/-- No union is empty or stands directly in another one, and the names of definitions are dotted
identifiers that are no built-in type. -/
structure Printable (context : Context) (schema : Schema) : Prop where
  unions : ∀ alternatives, union alternatives ∈ schema.constituents →
    alternatives ≠ [] ∧ ∀ alternative ∈ alternatives, alternative.isUnion = false
  names : ∀ node ∈ schema.constituents, ∀ definition, context.Leads node definition →
    ∀ name, TypeExpr.ofDefinition context.options definition = .ok (.named name) →
      isDotted name.text ∧ ∀ type : Builtin, name.text ≠ type.name

variable {context : Context} {schema : Schema}

theorem Printable.operand (h : schema.Printable context) {operand : Schema}
    (ho : operand ∈ schema.operands) : operand.Printable context where
  unions alternatives hu := h.unions alternatives (constituents_of_operand ho hu)
  names node hn := h.names node (constituents_of_operand ho hn)

end Schema

theorem Context.Leads.shape?_eq {context : Context} {node : Schema} {definition : Definition}
    (h : context.Leads node definition) :
    node.shape? context = definition.shape? context.options := by
  cases h with
  | inline => cases definition <;> rfl
  | reference name _ h =>
    rw [Schema.shape?, h]
    rfl

namespace TypeExpr

/-- A type expression has the text of a sound shape, and both are unions or none is. -/
structure Shows (type : TypeExpr) (shape : TypeShape) : Prop where
  text : type.render.toList = shape.letters
  sound : shape.Sound
  isUnion : type.isMultiUnion = shape.isUnion

namespace Shows

theorem array {item : TypeExpr} {shape : TypeShape} (h : item.Shows shape) :
    (array item).Shows (.array shape) where
  text := by
    rw [render_array, TypeShape.letters_array, h.isUnion, ← h.text]
    split <;> simp
  sound := .array shape h.sound
  isUnion := rfl

theorem index {value : TypeExpr} {shape : TypeShape} (h : value.Shows shape) :
    (index value).Shows (.index shape) where
  text := by
    rw [render_index, TypeShape.letters_index, ← h.text, String.toList_append,
      String.toList_append, List.append_assoc]
  sound := .index shape h.sound
  isUnion := rfl

theorem single {type : TypeExpr} {shape : TypeShape} (h : type.Shows shape)
    (hu : shape.isUnion = false) : (union [type]).Shows shape where
  text := by
    rw [render_union, List.map_singleton, String.intercalate_singleton, h.text]
  sound := h.sound
  isUnion := hu.symm

theorem union {types : List TypeExpr} {shapes : List TypeShape}
    (h : List.Forall₂ Shows types shapes) (hl : 2 ≤ types.length)
    (hu : ∀ shape ∈ shapes, shape.isUnion = false) : (union types).Shows (.union shapes) := by
  have ht : types.map (fun type => type.render.toList) = shapes.map TypeShape.letters :=
    Traversal.map_eq_of_forall₂ (h.imp fun _ _ hs => hs.text)
  have hs : ∀ shape ∈ shapes, shape.Sound := by
    clear ht hl hu
    induction h with
    | nil => simp
    | cons hs _ ih => exact List.forall_mem_cons.2 ⟨hs.sound, ih⟩
  have hr : (TypeExpr.union types).render.toList = (TypeShape.union shapes).letters := by
    rw [render_union, String.toList_intercalate, List.map_map, TypeShape.letters_union, ← ht]
    rfl
  cases h with
  | nil => cases hl
  | cons _ h =>
    cases h with
    | nil => simp at hl
    | cons _ _ => exact ⟨hr, .union _ _ _ hs hu, rfl⟩

theorem ofDefinition {options : Options} {definition : Definition} {type : TypeExpr}
    (h : TypeExpr.ofDefinition options definition = .ok type)
    (hn : ∀ name, TypeExpr.ofDefinition options definition = .ok (.named name) →
      isDotted name.text ∧ ∀ type : Builtin, name.text ≠ type.name) :
    ∃ shape, definition.shape? options = some shape ∧ type.Shows shape := by
  -- only the way to the name differs
  cases definition <;>
  · obtain ⟨name, hq, rfl⟩ := Traversal.map_eq_ok_iff.1 h
    obtain ⟨hd, ho⟩ := hn name h
    refine ⟨.named name.text, ?_, rfl, .named _ hd ho, rfl⟩
    rw [Definition.shape?, hq]
    rfl

variable {context : Context}

theorem exists_shapes {alternatives : List Schema} {types : List TypeExpr}
    (ht : alternatives.mapM (ofSchema context) = .ok types)
    (h : ∀ alternative ∈ alternatives, ∀ type, ofSchema context alternative = .ok type →
      ∃ shape, alternative.shape? context = some shape ∧ type.Shows shape ∧ shape.isUnion = false) :
    ∃ shapes, Schema.shapes? context alternatives = some shapes ∧
      List.Forall₂ Shows types shapes ∧ ∀ shape ∈ shapes, shape.isUnion = false := by
  induction alternatives generalizing types with
  | nil =>
    cases ht
    exact ⟨[], rfl, .nil, by simp⟩
  | cons alternative rest ih =>
    rw [List.mapM_cons] at ht
    obtain ⟨type, hf, ht⟩ := Traversal.bind_eq_ok_iff.1 ht
    obtain ⟨others, hr, ht⟩ := Traversal.bind_eq_ok_iff.1 ht
    cases ht
    obtain ⟨shape, hs, hv, hu⟩ := h alternative List.mem_cons_self type hf
    obtain ⟨shapes, hss, hvs, hus⟩ := ih hr (List.forall_mem_cons.1 h).2
    refine ⟨shape :: shapes, ?_, .cons hv hvs, List.forall_mem_cons.2 ⟨hu, hus⟩⟩
    rw [Schema.shapes?, hs, hss]
    rfl

theorem ofAlternatives {alternatives : List Schema} {types : List TypeExpr}
    (hne : alternatives ≠ []) (ht : alternatives.mapM (TypeExpr.ofSchema context) = .ok types)
    (h : ∀ alternative ∈ alternatives, ∀ type, TypeExpr.ofSchema context alternative = .ok type →
      ∃ shape, alternative.shape? context = some shape ∧ type.Shows shape ∧
        shape.isUnion = false) :
    ∃ shape, (Schema.union alternatives).shape? context = some shape ∧
      (TypeExpr.union types).Shows shape := by
  match alternatives with
  | [] => exact absurd rfl hne
  | [only] =>
    rw [List.mapM_cons] at ht
    obtain ⟨type, hf, ht⟩ := Traversal.bind_eq_ok_iff.1 ht
    cases ht
    obtain ⟨shape, hs, hv, hu⟩ := h only List.mem_cons_self type hf
    exact ⟨shape, hs, hv.single hu⟩
  | first :: second :: rest =>
    obtain ⟨shapes, hs, hv, hu⟩ := exists_shapes ht h
    have hl := (Traversal.mapM_eq_ok_iff.1 ht).length_eq
    refine ⟨.union shapes, ?_, union hv (by simp [← hl]) hu⟩
    rw [Schema.shape?, hs]
    · rfl
    · simp

theorem ofSchema {schema : Schema} (h : schema.Printable context) {type : TypeExpr}
    (ht : TypeExpr.ofSchema context schema = .ok type) :
    ∃ shape, schema.shape? context = some shape ∧ type.Shows shape := by
  induction ht using formed_induction with
  | primitive name wrapper => exact ⟨_, rfl, rfl, .builtin name.builtin, rfl⟩
  | definition node definition type ht hl hd =>
    rw [hl.shape?_eq]
    exact ofDefinition hd (h.names node node.self_mem_constituents definition hl)
  | union alternatives types ht hs ih =>
    obtain ⟨hne, hflat⟩ := h.unions alternatives (Schema.self_mem_constituents _)
    refine ofAlternatives hne hs fun alternative ha type ht => ?_
    obtain ⟨shape, hs, hv⟩ := ih alternative ha type ht (h.operand ha)
    exact ⟨shape, hs, hv, hv.isUnion ▸ isMultiUnion_ofSchema (hflat alternative ha) ht⟩
  | array before items after item ht hi ih =>
    obtain ⟨shape, hs, hv⟩ := ih (h.operand (by simp))
    refine ⟨.array shape, ?_, hv.array⟩
    rw [Schema.shape?, hs]
    rfl
  | map before values after value ht hv ih =>
    obtain ⟨shape, hs, hv⟩ := ih (h.operand (by simp))
    refine ⟨.index shape, ?_, hv.index⟩
    rw [Schema.shape?, hs]
    rfl

end Shows

variable {context : Context}

/-- Types with the same text have the same shape. If one of them is an array, so is the other one,
and the brackets at the end of the text belong to all that stands before them. -/
theorem render_unambiguous {first second : Schema} (hf : first.Printable context)
    (hs : second.Printable context) {type other : TypeExpr}
    (ht : ofSchema context first = .ok type) (ho : ofSchema context second = .ok other)
    (h : type.render = other.render) :
    ∃ shape, first.shape? context = some shape ∧ second.shape? context = some shape ∧
      ∀ before items after, first = .array before (some items) after →
        ∃ item, items.shape? context = some item ∧ shape = .array item := by
  obtain ⟨shape, hfs, hfv⟩ := Shows.ofSchema hf ht
  obtain ⟨second', hss, hsv⟩ := Shows.ofSchema hs ho
  have hl : shape.letters = second'.letters := by rw [← hfv.text, ← hsv.text, h]
  obtain rfl := TypeShape.letters_unique hfv.sound hsv.sound hl
  refine ⟨shape, hfs, hss, ?_⟩
  rintro before items after rfl
  rw [Schema.shape?] at hfs
  obtain ⟨item, hi, rfl⟩ := Option.map_eq_some_iff.1 hfs
  exact ⟨item, hi, rfl⟩

def item : Record :=
  .mk [("type", .str "record"), ("name", .str "Item"), ("namespace", .str "shop")] (.listed []) []

def shop : Context where
  registry := ⟨["shop.Item"], []⟩
  table := [(.str "shop.Item", .record item)]

def someOf (schema : Schema) : Schema :=
  .array [("type", .str "array")] (some (.union [schema, .primitive .null none])) []

theorem printable_someOf {schema : Schema} (ho : schema.operands = [])
    (hu : schema.isUnion = false)
    (hd : ∀ definition, shop.Leads schema definition → definition = .record item) :
    (someOf schema).Printable shop := by
  have hn := @Schema.constituents_leaf (.primitive .null none) rfl
  have hc : (someOf schema).constituents =
      [someOf schema, .union [schema, .primitive .null none], schema, .primitive .null none] := by
    rw [Schema.constituents_eq, someOf]
    simp only [Schema.operands_array, Option.toList, List.flatMap_cons, List.flatMap_nil]
    rw [Schema.constituents_eq]
    simp [hn, Schema.constituents_leaf ho]
  constructor
  · intro alternatives ha
    rw [hc] at ha
    simp only [someOf, List.mem_cons, reduceCtorEq, List.not_mem_nil, or_false, false_or,
      Schema.union.injEq] at ha
    obtain rfl | rfl := ha
    · have hz : (Schema.primitive .null none).isUnion = false := rfl
      exact ⟨List.cons_ne_nil _ _, by simp [hu, hz]⟩
    · cases hu
  · intro node hm definition hl name hf
    have hr : definition = .record item := by
      simp only [hc, List.mem_cons, List.not_mem_nil, or_false] at hm
      obtain rfl | rfl | rfl | rfl := hm
      · exact absurd hl (Context.not_leads rfl)
      · exact absurd hl (Context.not_leads rfl)
      · exact hd definition hl
      · exact absurd hl (Context.not_leads rfl)
    subst hr
    cases hf
    exact ⟨by decide, fun type => by cases type <;> decide⟩

theorem render_unambiguous_items :
    (someOf (.reference "Item")).Printable shop ∧ (someOf (.record item)).Printable shop ∧
    ∃ shape, (someOf (.reference "Item")).shape? shop = some shape ∧
      (someOf (.record item)).shape? shop = some shape ∧ ∃ item, shape = .array item := by
  have hr : (someOf (.reference "Item")).Printable shop := by
    refine printable_someOf rfl rfl fun definition hl => ?_
    obtain h | ⟨name, h, hd⟩ := hl.node_eq
    · cases definition <;> cases h
    · cases h
      cases hd
      rfl
  have hi : (someOf (.record item)).Printable shop := by
    refine printable_someOf rfl rfl fun definition hl => ?_
    obtain h | ⟨name, h, -⟩ := hl.node_eq
    · cases definition <;> cases h
      rfl
    · cases h
  obtain ⟨shape, hf, hs, ha⟩ := render_unambiguous hr hi rfl rfl rfl
  obtain ⟨item, -, he⟩ := ha _ _ _ rfl
  exact ⟨hr, hi, shape, hf, hs, item, he⟩

end TypeExpr

end AvroBindings
