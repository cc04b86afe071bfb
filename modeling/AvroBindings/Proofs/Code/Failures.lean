import AvroBindings.Proofs.Code.Faults

/-! Where conversions and declarations fail. The conversions of both directions, and with them the
class of a record, fail exactly by the faults that classes have, and the interface of a record by
those that types have. -/

namespace AvroBindings

/-- What looking up the tag or the test of an alternative goes wrong by. -/
def Schema.Untagged (context : Context) : Schema → Error → Prop
  | .reference name, e => context.resolve (.str name) = .error e
  | .union alternatives, e => e = .unknownType (Schema.union alternatives).toJson
  | .unknown value, e => e = .unknownType value
  | _, _ => False

variable {context : Context}

theorem Choice.failsBy_ofSchema {α : Type} {choice : Choice α} (hc : context.Legible)
    (hd : ∀ definition : Definition, definition.Legible →
      ∃ item, choice.ofDefinition context.options definition = .ok item)
    {schema : Schema} (h : schema.Legible) :
    FailsBy (schema.Untagged context) (choice.ofSchema context schema) := by
  have hl : ∀ definition, context.Leads schema definition →
      ∃ item, choice.ofSchema context schema = .ok item := by
    intro definition hl
    rw [ofSchema_of_leads hl]
    exact hd definition (hl.legible hc h)
  cases schema with
  | reference name =>
    cases hr : context.resolve (.str name) with
    | ok definition =>
      obtain ⟨item, hi⟩ := hl definition (.reference name definition hr)
      rw [hi]
      intro e (he : context.resolve (.str name) = .error e)
      rw [hr] at he
      cases he
    | error e =>
      have ho : choice.ofSchema context (.reference name) = .error e := by
        rw [ofSchema, hr]
        rfl
      rw [ho]
      exact hr
  | enum own =>
    obtain ⟨item, hi⟩ := hl (.enum own) (.inline (.enum own))
    rw [hi]
    exact fun e he => he
  | record own =>
    obtain ⟨item, hi⟩ := hl (.record own) (.inline (.record own))
    rw [hi]
    exact fun e he => he
  | union alternatives => exact rfl
  | unknown value => exact rfl
  | array before items after => exact fun e he => he
  | map before values after => exact fun e he => he
  | primitive name wrapper => exact fun e he => he

theorem Tag.failsBy_ofSchema (hc : context.Legible) {schema : Schema} (h : schema.Legible) :
    FailsBy (schema.Untagged context) (ofSchema context schema) := by
  rw [← choice_ofSchema]
  refine Choice.failsBy_ofSchema hc (fun definition hd => ?_) h
  rw [choice_ofDefinition]
  exact ⟨_, ofDefinition_eq context.options hd⟩

theorem Test.failsBy_ofSchema (hc : context.Legible) {schema : Schema} (h : schema.Legible) :
    FailsBy (schema.Untagged context) (ofSchema context schema) := by
  rw [← choice_ofSchema]
  refine Choice.failsBy_ofSchema hc (fun definition hd => ?_) h
  rw [choice_ofDefinition]
  exact ⟨_, ofDefinition_eq context.options hd⟩

/-- A branch fails by the faults of its alternative, or because the alternative has no tag. -/
def Schema.BranchFaults (context : Context) (schema : Schema) (e : Error) : Prop :=
  (schema.isUnion ∧ e = .unknownType schema.toJson) ∨ schema.Faults context true e

theorem Schema.branchFaults_iff {schema : Schema} {e : Error} :
    schema.BranchFaults context e ↔ schema.Untagged context e ∨ schema.Faults context true e := by
  unfold BranchFaults
  cases schema with
  | reference name => simp [isUnion, Untagged, faults_reference]
  | union alternatives => simp [isUnion, Untagged]
  | unknown value => simp [isUnion, Untagged, faults_unknown]
  | _ => simp [isUnion, Untagged]

theorem Schema.faults_union_iff_branchFaults {alternatives : List Schema}
    (hl : alternatives.length ≠ 1) {e : Error} :
    (union alternatives).Faults context true e ↔
      ∃ alternative ∈ nonNull alternatives, alternative.BranchFaults context e := by
  rw [faults_union, ← exists_nonNull_iff]
  simp only [BranchFaults, Faulty, hl, ne_eq, not_false_eq_true, true_and]
  constructor
  · rintro (⟨alternative, hm, hu, he⟩ | ⟨alternative, hm, hf⟩)
    · refine ⟨alternative, mem_nonNull.2 ⟨hm, ?_⟩, .inl ⟨hu, he⟩⟩
      cases alternative with
      | union inner => rfl
      | _ => cases hu
    · exact ⟨alternative, hm, .inr hf⟩
  · rintro ⟨alternative, hm, ⟨hu, he⟩ | hf⟩
    · exact .inl ⟨alternative, (mem_nonNull.1 hm).1, hu, he⟩
    · exact .inr ⟨alternative, hm, hf⟩

namespace Conversion

/-- The conversion of a schema fails by its faults, wherever the value stands. -/
def Fails (direction : Direction) (context : Context) (schema : Schema) : Prop :=
  ∀ access depth optional, FailsBy (schema.Faults context true)
    (ofSchema direction context schema access depth optional)

end Conversion

theorem Branch.failsBy_ofAlternative (hc : context.Legible) (direction : Direction)
    {alternative : Schema} (h : alternative.Legible)
    (hf : Conversion.Fails direction context alternative) (access : Access) (depth : Int) :
    FailsBy (alternative.BranchFaults context)
      (ofAlternative direction context access depth alternative) := by
  have htag := Tag.failsBy_ofSchema hc h
  have htest := Test.failsBy_ofSchema hc h
  cases direction with
  | deserialize =>
    have hb := htag.bind fun tag _ => (hf (access.tagged tag) depth false).bind_ok
      fun conversion _ =>
        ⟨Branch.mk (access.tagged tag) .isDefined (.value conversion), rfl⟩
    exact hb.congr fun e => Schema.branchFaults_iff.symm
  | serialize =>
    have hb := htest.bind fun test _ => htag.bind fun tag _ =>
      (hf access depth false).bind_ok fun conversion _ =>
        ⟨Branch.mk access test (.wrapped tag conversion), rfl⟩
    refine hb.congr fun e => ?_
    rw [Schema.branchFaults_iff, ← or_assoc, or_self]

namespace Conversion

theorem failsBy_entriesType (hc : context.Legible) {values : Schema} (h : values.Readable)
    (direction : Direction) :
    ∃ faults : Error → Prop, FailsBy faults (entriesType context values direction) ∧
      ∀ e, faults e → values.Faults context true e := by
  cases direction with
  | deserialize =>
    exact ⟨_, (TypeExpr.failsBy_ofSchema hc h).map TypeExpr.index, fun e => Schema.Faults.mono⟩
  | serialize => exact ⟨_, FailsBy.ok _, fun e he => he.elim⟩

/-- A conversion fails exactly by the faults that classes have. -/
theorem fails (hc : context.Legible) (direction : Direction) {schema : Schema}
    (h : schema.Readable) : Fails direction context schema := by
  induction schema using Schema.byChildren with
  | step schema ih =>
    have hi : ∀ operand ∈ schema.operands, Fails direction context operand :=
      fun operand hm => ih operand (schema.operands_subset_children hm) (h.operand hm)
    intro access depth optional
    have hd : ∀ definition, context.Leads schema definition →
        FailsBy (schema.Faults context true)
          (ofSchema direction context schema access depth optional) := by
      intro definition hl
      rw [hl.conversion (hl.legible hc h.legible)]
      exact fun e => hl.not_faults
    cases schema with
    | primitive name wrapper =>
      rw [ofSchema_primitive]
      exact fun e => Schema.not_faults_primitive
    | reference name =>
      cases hr : context.resolve (.str name) with
      | ok definition => exact hd definition (.reference name definition hr)
      | error e =>
        rw [ofSchema_reference_error direction context access depth optional hr]
        exact Schema.faults_reference.2 hr
    | enum own => exact hd (.enum own) (.inline (.enum own))
    | record own => exact hd (.record own) (.inline (.record own))
    | array before items after =>
      cases items with
      | none => cases h.legible
      | some items =>
        rw [ofSchema_array]
        have hr := (hi items (by simp)) (.bound ⟨.element, depth⟩) (depth + 1) false
        exact (hr.map _).congr fun e => Schema.faults_array.symm
    | map before values after =>
      cases values with
      | none => cases h.legible
      | some values =>
        have hv : values.Readable := h.operand (by simp)
        obtain ⟨faults, ht, hle⟩ := failsBy_entriesType hc hv direction
        have hb := (hi values (by simp)) (.bound ⟨.mapValue, depth⟩) (depth + 1) false
        have hr := ht.bind fun type _ => hb.bind_ok fun body _ =>
          ⟨entries access depth type body, rfl⟩
        rw [ofSchema_map]
        refine hr.congr fun e => ?_
        rw [Schema.faults_map, or_iff_right_of_imp (hle e)]
    | union alternatives =>
      by_cases hl : alternatives.length = 1
      · obtain ⟨only, rfl⟩ := List.length_eq_one_iff.1 hl
        rw [ofSchema_single]
        refine (hi only (by simp) access depth optional).congr fun e => ?_
        simp [Schema.faults_union, Schema.Faulty]
      · have hb := fun alternative (hm : alternative ∈ Schema.nonNull alternatives) =>
          have ha := (Schema.mem_nonNull.1 hm).1
          Branch.failsBy_ofAlternative hc direction
            (h.operand ha).legible (hi alternative ha) access depth
        have hr := (FailsBy.mapM hb).bind_ok fun branches _ => ⟨dispatch direction
          (Branch.nullBranches direction optional access alternatives ++ branches), rfl⟩
        rw [ofSchema_union direction context access depth optional hl]
        exact hr.congr fun e => (Schema.faults_union_iff_branchFaults hl).symm
    | unknown value =>
      rw [ofSchema_unknown]
      exact (FailsBy.error _).congr fun e => Schema.faults_unknown.symm

end Conversion

namespace Field

def Faults (context : Context) (classes : Bool) (field : Field) (e : Error) : Prop :=
  ∃ type, field.type? = some type ∧ type.Faults context classes e

variable {field : Field}

theorem faults_of_type? {type : Schema} (h : field.type? = some type) {classes : Bool}
    {e : Error} : field.Faults context classes e ↔ type.Faults context classes e := by
  unfold Faults
  rw [h]
  simp

end Field

theorem TypeExpr.failsBy_ofProperty (hc : context.Proper) {schema : Schema}
    (h : schema.WellFormed) :
    FailsBy (schema.Faults context false) (ofProperty context schema) := by
  unfold ofProperty
  split
  next first second rest =>
    split
    next hn =>
      have hw : (Schema.union (second :: rest)).WellFormed := by
        rw [Schema.wellFormed_union] at h ⊢
        exact fun other ho => h other (List.mem_cons_of_mem first ho)
      refine (failsBy_ofSchema hc.legible hw.readable).congr fun e => ?_
      obtain ⟨wrapper, rfl⟩ := Schema.isNull_iff.1 hn
      simp [Schema.faults_union, Schema.Faulty, Schema.not_faults_primitive]
    next => exact failsBy_ofSchema hc.legible h.readable
  next => exact failsBy_ofSchema hc.legible h.readable

variable {field : Field}

theorem Property.ofField_eq {name : String} {type : Schema} (hn : field.name = .ok (.str name))
    (ht : field.type = .ok type) :
    ofField context field =
      (TypeExpr.ofProperty context type).map (Property.mk name type.isOptional) := by
  unfold ofField
  rw [hn, ht]
  rfl

theorem Property.failsBy_ofField (hc : context.Proper) (h : field.Proper)
    (hw : ∀ type, field.type? = some type → type.WellFormed) :
    FailsBy (field.Faults context false) (ofField context field) := by
  obtain ⟨name, type, hn, ht, hs⟩ := h.exists_eq
  have hf := (TypeExpr.failsBy_ofProperty hc (hw type hs)).map (Property.mk name type.isOptional)
  rw [ofField_eq hn ht]
  exact hf.congr fun e => (Field.faults_of_type? hs).symm

theorem Assignment.ofField_eq {name : String} {type : Schema} (hn : field.name = .ok (.str name))
    (ht : field.type = .ok type) (direction : Direction) :
    ofField context direction field =
      (Conversion.ofSchema direction context type (.field name) 0 type.isOptional).map
        (Assignment.mk name) := by
  unfold ofField
  rw [hn, ht]
  cases direction <;> rfl

theorem Assignment.failsBy_ofField (hc : context.Proper) (direction : Direction)
    (h : field.Proper) (hw : ∀ type, field.type? = some type → type.WellFormed) :
    FailsBy (field.Faults context true) (ofField context direction field) := by
  obtain ⟨name, type, hn, ht, hs⟩ := h.exists_eq
  have hf := Conversion.fails hc.legible direction (hw type hs).readable (.field name) 0
    type.isOptional
  rw [ofField_eq hn ht]
  exact (hf.map (Assignment.mk name)).congr fun e => (Field.faults_of_type? hs).symm

namespace Record

def Faults (context : Context) (classes : Bool) (definition : Record) (e : Error) : Prop :=
  ∃ type ∈ definition.fields.types, type.Faults context classes e

variable {definition : Record}

theorem failsBy_mapM {β : Type} {classes : Bool} {f : Field → Except Error β}
    (h : (Schema.record definition).WellFormed)
    (hf : ∀ field : Field, field.Proper → (∀ type, field.type? = some type → type.WellFormed) →
      FailsBy (field.Faults context classes) (f field)) :
    FailsBy (definition.Faults context classes) (definition.fieldList.mapM f) := by
  obtain ⟨hp, ht⟩ := Schema.wellFormed_record.1 h
  have hm := FailsBy.mapM fun field hm => hf field (hp.of_mem hm) fun type hs =>
    ht type (mem_types.2 ⟨field, hm, hs⟩)
  refine hm.congr fun e => ?_
  unfold Faults
  constructor
  · rintro ⟨field, hm, type, hs, he⟩
    exact ⟨type, mem_types.2 ⟨field, hm, hs⟩, he⟩
  · rintro ⟨type, ht, he⟩
    obtain ⟨field, hm, hs⟩ := mem_types.1 ht
    exact ⟨field, hm, type, hs, he⟩

end Record

variable {definition : Record}

theorem Method.ofRecord_eq (h : definition.Proper) (direction : Direction) :
    ofRecord context direction definition =
      (definition.fieldList.mapM (Assignment.ofField context direction)).map
        (Method.mk definition.attributes.shortName direction) := by
  unfold ofRecord
  rw [h.named.titled.name_eq, h.toList_eq]
  rfl

theorem Method.failsBy_ofRecord (hc : context.Proper) (direction : Direction)
    (h : (Schema.record definition).WellFormed) :
    FailsBy (definition.Faults context true) (ofRecord context direction definition) := by
  have hp : definition.Proper := (Schema.wellFormed_record.1 h).1
  have hm := Record.failsBy_mapM h fun field => Assignment.failsBy_ofField hc direction
  rw [ofRecord_eq hp]
  exact hm.map _

theorem ClassDeclaration.ofRecord_eq (h : definition.Proper) :
    ofRecord context definition = (do
      let properties ← definition.fieldList.mapM (Property.ofField context)
      let deserializer ← Method.ofRecord context .deserialize definition
      let serializer ← Method.ofRecord context .serialize definition
      return ⟨definition.attributes.shortName,
        context.options.interfaceText definition.attributes.shortName,
        definition.attributes.qualifiedText, properties, deserializer, serializer⟩) := by
  unfold ofRecord
  rw [h.named.titled.name_eq, h.named.titled.interfaceName, h.named.qualifiedName,
    h.toList_eq]
  rfl

theorem ClassDeclaration.of_ofRecord (h : definition.Proper) {own : ClassDeclaration}
    (ho : ofRecord context definition = .ok own) :
    ∃ properties reads writes,
      definition.fieldList.mapM (Property.ofField context) = .ok properties ∧
      definition.fieldList.mapM (Assignment.ofField context .deserialize) = .ok reads ∧
      definition.fieldList.mapM (Assignment.ofField context .serialize) = .ok writes ∧
      own = ⟨definition.attributes.shortName,
        context.options.interfaceText definition.attributes.shortName,
        definition.attributes.qualifiedText, properties,
        ⟨definition.attributes.shortName, .deserialize, reads⟩,
        ⟨definition.attributes.shortName, .serialize, writes⟩⟩ := by
  rw [ofRecord_eq h, Method.ofRecord_eq h, Method.ofRecord_eq h] at ho
  obtain ⟨properties, hp, ho⟩ := Traversal.bind_eq_ok_iff.1 ho
  obtain ⟨deserializer, hd, ho⟩ := Traversal.bind_eq_ok_iff.1 ho
  obtain ⟨serializer, hs, ho⟩ := Traversal.bind_eq_ok_iff.1 ho
  obtain ⟨reads, hr, rfl⟩ := Traversal.map_eq_ok_iff.1 hd
  obtain ⟨writes, hw, rfl⟩ := Traversal.map_eq_ok_iff.1 hs
  cases ho
  exact ⟨properties, reads, writes, hp, hr, hw, rfl⟩

theorem ClassDeclaration.failsBy_ofRecord (hc : context.Proper)
    (h : (Schema.record definition).WellFormed) :
    FailsBy (definition.Faults context true) (ofRecord context definition) := by
  have hp : definition.Proper := (Schema.wellFormed_record.1 h).1
  have hm := Record.failsBy_mapM h fun field => Property.failsBy_ofField hc
  have hd := Method.failsBy_ofRecord hc .deserialize h
  have hs := Method.failsBy_ofRecord hc .serialize h
  rw [ofRecord_eq hp]
  have hr := hm.bind fun properties _ => hd.bind fun deserializer _ =>
    hs.bind_ok fun serializer _ => ⟨ClassDeclaration.mk definition.attributes.shortName
      (context.options.interfaceText definition.attributes.shortName)
      definition.attributes.qualifiedText properties deserializer serializer, rfl⟩
  refine hr.congr fun e => ?_
  have hle : definition.Faults context false e → definition.Faults context true e := by
    rintro ⟨type, ht, he⟩
    exact ⟨type, ht, he.mono⟩
  rw [or_self, or_iff_right_of_imp hle]

namespace Declaration

theorem ofRecord_eq (h : definition.Proper) :
    ofRecord context definition =
      (definition.fieldList.mapM (Property.ofField context)).map
        (interface (context.options.interfaceText definition.attributes.shortName)) := by
  unfold ofRecord
  rw [h.named.titled.interfaceName, h.toList_eq]
  rfl

theorem failsBy_ofRecord (hc : context.Proper) (h : (Schema.record definition).WellFormed) :
    FailsBy (definition.Faults context false) (ofRecord context definition) := by
  have hp : definition.Proper := (Schema.wellFormed_record.1 h).1
  have hm := Record.failsBy_mapM h fun field => Property.failsBy_ofField hc
  rw [ofRecord_eq hp]
  exact hm.map _

theorem failsBy_classOfRecord (hc : context.Proper)
    (h : (Schema.record definition).WellFormed) :
    FailsBy (definition.Faults context true) (classOfRecord context definition) :=
  (ClassDeclaration.failsBy_ofRecord hc h).map classOf

theorem exists_ofEnum (options : Options) {definition : Enum} (h : definition.Proper) :
    ∃ declaration, ofEnum options definition = .ok declaration := by
  unfold ofEnum
  rw [h.named.titled.name_eq, h.legible.symbols_eq]
  exact ⟨_, rfl⟩

end Declaration

end AvroBindings
