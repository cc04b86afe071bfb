import AvroBindings.Proofs.Code.Formation
import AvroBindings.Proofs.Outcome

/-! What can go wrong where code is generated for a type: at one of the nodes met from it without
entering the fields of a record. Types and conversions fail exactly by the faults of these nodes,
and a record is declared exactly if no field type has a fault. -/

namespace AvroBindings

namespace Schema

/-- What a single node goes wrong by. A union below another one has no tag, so that only classes
cannot have it. -/
def Faulty (context : Context) (classes : Bool) : Schema → Error → Prop
  | unknown value, e => e = .unknownType value
  | reference name, e => context.resolve (.str name) = .error e
  | union alternatives, e => classes ∧ alternatives.length ≠ 1 ∧
      ∃ alternative ∈ alternatives, alternative.isUnion ∧ e = .unknownType alternative.toJson
  | _, _ => False

def Faults (context : Context) (classes : Bool) (schema : Schema) (e : Error) : Prop :=
  ∃ node ∈ schema.constituents, node.Faulty context classes e

variable {context : Context} {classes : Bool} {schema : Schema} {e : Error}

attribute [local simp] operands Faulty

theorem faults_iff : schema.Faults context classes e ↔
    schema.Faulty context classes e ∨
      ∃ operand ∈ schema.operands, operand.Faults context classes e := by
  unfold Faults
  rw [constituents_eq]
  simp only [List.mem_cons, List.mem_flatMap]
  constructor
  · rintro ⟨node, rfl | ⟨operand, ho, hn⟩, hf⟩
    · exact .inl hf
    · exact .inr ⟨operand, ho, node, hn, hf⟩
  · rintro (hf | ⟨operand, ho, node, hn, hf⟩)
    · exact ⟨schema, .inl rfl, hf⟩
    · exact ⟨node, .inr ⟨operand, ho, hn⟩, hf⟩

theorem Faulty.mono (h : schema.Faulty context false e) : schema.Faulty context classes e := by
  cases schema with
  | union alternatives => exact absurd h.1 (by decide)
  | _ => exact h

theorem Faults.mono (h : schema.Faults context false e) : schema.Faults context classes e := by
  obtain ⟨node, hn, hf⟩ := h
  exact ⟨node, hn, hf.mono⟩

theorem faults_reference {name : String} :
    (reference name).Faults context classes e ↔ context.resolve (.str name) = .error e := by
  rw [faults_iff]
  simp

theorem faults_unknown {value : Json} :
    (unknown value).Faults context classes e ↔ e = .unknownType value := by
  rw [faults_iff]
  simp

theorem not_faults_primitive {name : Primitive} {wrapper : Option Attributes} :
    ¬(primitive name wrapper).Faults context classes e := by
  rw [faults_iff]
  simp

theorem not_faults_definition {definition : Definition} :
    ¬definition.schema.Faults context classes e := by
  rw [faults_iff]
  cases definition <;> simp [Definition.schema]

theorem faults_array {before after : Attributes} {items : Schema} :
    (array before (some items) after).Faults context classes e ↔
      items.Faults context classes e := by
  rw [faults_iff]
  simp

theorem faults_map {before after : Attributes} {values : Schema} :
    (map before (some values) after).Faults context classes e ↔
      values.Faults context classes e := by
  rw [faults_iff]
  simp

theorem faults_union {alternatives : List Schema} :
    (union alternatives).Faults context classes e ↔
      (union alternatives).Faulty context classes e ∨
        ∃ alternative ∈ alternatives, alternative.Faults context classes e :=
  faults_iff

theorem isNull_iff : schema.isNull ↔ ∃ wrapper, schema = primitive .null wrapper := by
  constructor
  · intro h
    unfold isNull at h
    split at h
    next wrapper => exact ⟨wrapper, rfl⟩
    next => cases h
  · rintro ⟨wrapper, rfl⟩
    rfl

theorem isOptional_iff :
    schema.isOptional ↔ ∃ wrapper rest, schema = union (primitive .null wrapper :: rest) := by
  constructor
  · intro h
    unfold isOptional at h
    split at h
    next first rest =>
      obtain ⟨wrapper, rfl⟩ := isNull_iff.1 h
      exact ⟨wrapper, rest, rfl⟩
    next => cases h
  · rintro ⟨wrapper, rest, rfl⟩
    rfl

theorem mem_nonNull {alternatives : List Schema} :
    schema ∈ nonNull alternatives ↔ schema ∈ alternatives ∧ schema.isNull = false := by
  simp [nonNull]

theorem exists_nonNull_iff {alternatives : List Schema} :
    (∃ alternative ∈ nonNull alternatives, alternative.Faults context classes e) ↔
      ∃ alternative ∈ alternatives, alternative.Faults context classes e := by
  constructor
  · rintro ⟨alternative, hm, hf⟩
    exact ⟨alternative, (mem_nonNull.1 hm).1, hf⟩
  · rintro ⟨alternative, hm, hf⟩
    refine ⟨alternative, mem_nonNull.2 ⟨hm, ?_⟩, hf⟩
    cases hn : alternative.isNull with
    | false => rfl
    | true =>
      obtain ⟨wrapper, rfl⟩ := isNull_iff.1 hn
      exact absurd hf not_faults_primitive

end Schema

theorem Context.Leads.not_faults {context : Context} {node : Schema} {definition : Definition}
    (h : context.Leads node definition) {classes : Bool} {e : Error} :
    ¬node.Faults context classes e := by
  cases h with
  | inline => exact Schema.not_faults_definition
  | reference name _ h =>
    rw [Schema.faults_reference, h]
    intro he
    cases he

namespace TypeExpr

def IsText : TypeExpr → Prop
  | named name => ∃ text, name = .str text
  | _ => True

theorem nonText?_eq_none {types : List TypeExpr} (h : ∀ type ∈ types, type.IsText)
    (position : Nat) : nonText? position types = none := by
  induction types generalizing position with
  | nil => rfl
  | cons type rest ih =>
    have hr := ih (fun other ho => h other (List.mem_cons_of_mem type ho)) (position + 1)
    have ht : type.IsText := h type List.mem_cons_self
    cases type with
    | named name =>
      obtain ⟨text, rfl⟩ := ht
      exact hr
    | _ => exact hr

theorem unionOf_eq {types : List TypeExpr} (h : ∀ type ∈ types, type.IsText) :
    unionOf types = .ok (union types) := by
  unfold unionOf
  rw [nonText?_eq_none h]

variable {context : Context}

theorem isText_ofDefinition {options : Options} {definition : Definition}
    (h : definition.Legible) {type : TypeExpr} (ht : ofDefinition options definition = .ok type) :
    type.IsText := by
  rw [ofDefinition_eq options h] at ht
  cases ht
  exact ⟨_, rfl⟩

theorem isText_ofSchema (hc : context.Legible) {schema : Schema} (h : schema.Legible)
    {type : TypeExpr} (ht : ofSchema context schema = .ok type) : type.IsText := by
  cases ht using formed_induction with
  | definition node definition type ht hl hd => exact isText_ofDefinition (hl.legible hc h) hd
  | primitive => trivial
  | union => trivial
  | array => trivial
  | map => trivial

theorem isMultiUnion_ofDefinition {options : Options} {definition : Definition} {type : TypeExpr}
    (h : ofDefinition options definition = .ok type) : type.isMultiUnion = false := by
  cases definition with
  | enum own =>
    obtain ⟨name, -, rfl⟩ := Traversal.map_eq_ok_iff.1 h
    rfl
  | record own =>
    obtain ⟨name, -, rfl⟩ := Traversal.map_eq_ok_iff.1 h
    rfl

theorem isMultiUnion_ofSchema {schema : Schema} (hu : schema.isUnion = false) {type : TypeExpr}
    (h : ofSchema context schema = .ok type) : type.isMultiUnion = false := by
  cases h using formed_induction with
  | definition node definition type ht hl hd => exact isMultiUnion_ofDefinition hd
  | union => cases hu
  | primitive => rfl
  | array => rfl
  | map => rfl

/-- A type expression fails exactly by the faults of its schema. -/
theorem failsBy_ofSchema (hc : context.Legible) {schema : Schema} (h : schema.Readable) :
    FailsBy (schema.Faults context false) (ofSchema context schema) := by
  induction schema using Schema.byChildren with
  | step schema ih =>
    have hi : ∀ operand ∈ schema.operands,
        FailsBy (operand.Faults context false) (ofSchema context operand) :=
      fun operand hm => ih operand (schema.operands_subset_children hm) (h.operand hm)
    have hd : ∀ definition, context.Leads schema definition →
        FailsBy (schema.Faults context false) (ofSchema context schema) := by
      intro definition hl
      rw [hl.type (hl.legible hc h.legible)]
      exact fun e => hl.not_faults
    cases schema with
    | primitive name wrapper =>
      rw [ofSchema]
      exact fun e => Schema.not_faults_primitive
    | reference name =>
      cases hr : context.resolve (.str name) with
      | ok definition => exact hd definition (.reference name definition hr)
      | error e =>
        rw [ofSchema, hr]
        exact Schema.faults_reference.2 hr
    | enum own => exact hd (.enum own) (.inline (.enum own))
    | record own => exact hd (.record own) (.inline (.record own))
    | union alternatives =>
      have ht : ∀ types, alternatives.mapM (ofSchema context) = .ok types →
          ∃ type, unionOf types = .ok type := by
        intro types ht
        refine ⟨_, unionOf_eq fun type hm => ?_⟩
        obtain ⟨alternative, ha, hr⟩ := Traversal.of_mem_mapM ht hm
        exact isText_ofSchema hc (h.operand ha).legible hr
      rw [ofSchema, ofSchemas_eq]
      exact ((FailsBy.mapM hi).bind_ok ht).congr fun e => by simp [Schema.faults_union, Schema.Faulty]
    | array before items after =>
      cases items with
      | none => cases h.legible
      | some items =>
        have hr := (hi items (by simp)).map array
        rw [ofSchema]
        exact hr.congr fun e => Schema.faults_array.symm
    | map before values after =>
      cases values with
      | none => cases h.legible
      | some values =>
        have hr := (hi values (by simp)).map index
        rw [ofSchema]
        exact hr.congr fun e => Schema.faults_map.symm
    | unknown value =>
      rw [ofSchema]
      exact (FailsBy.error _).congr fun e => Schema.faults_unknown.symm

end TypeExpr

end AvroBindings
