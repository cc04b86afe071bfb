import AvroBindings.Proofs.Runtime.Conversions

/-! What a value is told by when it is written. The test of an alternative is passed by values of one
shape only, and alternatives of one shape have conversions that do the same. A value may then pass
the test of another alternative than its own, but it is converted alike. -/

namespace AvroBindings.Runtime

variable {κ ν : Type}

inductive Shape (κ : Type) where
  | scalar
  | instanceOf (own : κ)
  | list
  | plain

namespace Value

def shape : Value κ ν → Shape κ
  | array _ => .list
  | object (some own) _ => .instanceOf own
  | object none _ => .plain
  | _ => .scalar

def IsGiven (value : Value κ ν) : Prop := value ≠ .null ∧ value ≠ .undefined

end Value

/-- The shape of the values of an alternative that has a branch of its own. -/
inductive Shaped (context : Context) (records : List Record) (classOf : Record → κ) :
    Schema → Shape κ → Prop where
  | primitive (name : Primitive) (wrapper : Option Attributes) (h : name ≠ .null) :
    Shaped context records classOf (.primitive name wrapper) .scalar
  | enum (node : Schema) (own : Enum) (h : context.Leads node (.enum own)) :
    Shaped context records classOf node .scalar
  | record (node : Schema) (own : Record) (h : context.Leads node (.record own))
    (hm : own ∈ records) : Shaped context records classOf node (.instanceOf (classOf own))
  | array (before after : Attributes) (items : Schema) :
    Shaped context records classOf (.array before (some items) after) .list
  | map (before after : Attributes) (values : Schema) :
    Shaped context records classOf (.map before (some values) after) .plain

namespace World

def Accepts [DecidableEq κ] (world : World κ ν) (own : κ) (context : Context) (value : Value κ ν)
    (alternative : Schema) : Prop :=
  ∃ test, Test.ofSchema context alternative = .ok test ∧ world.passes own value test = true

/-- The methods of the classes of some records, with names that lead to definitions. -/
structure Setting (world : World κ ν) (context : Context) (records : List Record)
    (classOf : Record → κ) : Prop extends world.Realizes context records classOf where
  proper : context.Proper
  records_proper : ∀ own ∈ records, own.Proper
  spelled : ∀ own ∈ records, own.WordedBy .strict context
  found : ∀ name definition, context.resolve (.str name) = .ok definition →
    context.registry.find name = .ok (some definition.attributes.qualifiedText)

end World

variable {world : World κ ν} {context : Context} {records : List Record} {classOf : Record → κ}
  {schema : Schema} {shape : Shape κ}

theorem exists_shaped (hr : Ready context records schema) (hu : schema.isUnion = false)
    (hn : schema.isNull = false) : ∃ shape, Shaped context records classOf schema shape := by
  have hl : ∀ definition, context.Leads schema definition →
      ∃ shape, Shaped context records classOf schema shape := by
    intro definition hd
    cases definition with
    | enum own => exact ⟨_, .enum schema own hd⟩
    | record own =>
      have hm := hr.leads schema (Schema.self_mem_constituents schema) own hd
      exact ⟨_, .record schema own hd hm⟩
  cases schema with
  | primitive name wrapper =>
    refine ⟨_, .primitive name wrapper ?_⟩
    rintro rfl
    cases hn
  | reference name =>
    cases hd : context.resolve (.str name) with
    | ok definition => exact hl definition (.reference name definition hd)
    | error e => exact absurd (Schema.faults_reference.2 hd) (hr.faultless e)
  | enum own => exact hl (.enum own) (.inline (.enum own))
  | record own => exact hl (.record own) (.inline (.record own))
  | union alternatives => cases hu
  | array before items after =>
    cases items with
    | none => cases hr.wellFormed.proper
    | some items => exact ⟨_, .array before after items⟩
  | map before values after =>
    cases values with
    | none => cases hr.wellFormed.proper
    | some values => exact ⟨_, .map before after values⟩
  | unknown value => exact absurd (Schema.faults_unknown.2 rfl) (hr.faultless _)

theorem exists_shaped_alternative {alternatives : List Schema}
    (hr : Ready context records (.union alternatives)) (hl : alternatives.length ≠ 1)
    {alternative : Schema} (hm : alternative ∈ Schema.nonNull alternatives) :
    alternative.Proper ∧ ∃ shape, Shaped context records classOf alternative shape := by
  obtain ⟨hm, hn⟩ := Schema.mem_nonNull.1 hm
  have ho : Ready context records alternative := hr.operand hm
  have hu : alternative.isUnion = false := Bool.eq_false_iff.2 fun hu =>
    hr.faultless _ (Schema.faults_union.2 (.inl ⟨rfl, hl, alternative, hm, hu, rfl⟩))
  exact ⟨ho.wellFormed.proper, exists_shaped ho hu hn⟩

variable {self : Record}

theorem World.Setting.exists_declaration {own : Record}
    (hw : world.Setting context records classOf) (hm : own ∈ records) :
    ∃ declaration, ClassDeclaration.ofRecord context own = .ok declaration ∧
      world.declaration (classOf own) = declaration.untyped := by
  obtain ⟨declaration, ho, hr⟩ := hw.declared own hm
  rw [(ClassDeclaration.of_eq_ok ho).read_render (hw.spelled own hm)] at hr
  exact ⟨declaration, ho, (Option.some.inj hr).symm⟩

theorem World.Setting.key_record {self own : Record}
    (hw : world.Setting context records classOf) (hs : self ∈ records) (hm : own ∈ records) :
    world.key (classOf self) ((Definition.record own).tag context.options) =
      own.attributes.qualifiedText := by
  obtain ⟨declaration, hd, ho⟩ := hw.exists_declaration hm
  obtain ⟨properties, reads, writes, -, -, -, rfl⟩ :=
    ClassDeclaration.of_ofRecord (hw.records_proper own hm) hd
  calc world.key (classOf self) ((Definition.record own).tag context.options)
      = (world.declaration (classOf own)).fullName :=
        congrArg (fun other => (world.declaration other).fullName) (hw.named self hs own hm)
    _ = own.attributes.qualifiedText := by rw [ho, ClassDeclaration.untyped]

theorem Shaped.exists_tag (h : Shaped context records classOf schema shape)
    (hw : world.Setting context records classOf) (hs : self ∈ records) (hp : schema.Proper) :
    ∃ tag, Tag.ofSchema context schema = .ok tag ∧
      context.typeName schema = .ok (some (.str (world.key (classOf self) tag))) := by
  have hd : ∀ definition, context.Leads schema definition → definition.Proper →
      context.typeName schema = .ok (some (.str definition.attributes.qualifiedText)) := by
    intro definition hl hq
    cases hl with
    | inline =>
      have hn := hq.named.qualifiedName
      cases definition <;> exact congrArg (·.map some) hn
    | reference name _ hr => exact congrArg (·.map (·.map Json.str)) (hw.found name definition hr)
  cases h with
  | primitive name wrapper hn => exact ⟨_, rfl, rfl⟩
  | enum _ own hl =>
    have hq := hl.proper hw.proper hp
    exact ⟨_, hl.tag hq.legible, hd _ hl hq⟩
  | record _ own hl hm =>
    have hq := hl.proper hw.proper hp
    refine ⟨_, hl.tag hq.legible, ?_⟩
    rw [hd _ hl hq, hw.key_record hs hm]
    rfl
  | array before after items => exact ⟨_, rfl, rfl⟩
  | map before after values => exact ⟨_, rfl, rfl⟩

theorem Shaped.conversion_scalar (h : Shaped context records classOf schema .scalar)
    (hw : world.Setting context records classOf) (hp : schema.Proper) (direction : Direction)
    (access : Access) (depth : Int) (optional : Bool) :
    Conversion.ofSchema direction context schema access depth optional = .ok (.same access) := by
  cases h with
  | primitive name wrapper hn =>
    exact Conversion.ofSchema_primitive direction context access depth optional name wrapper
  | enum _ own hl =>
    exact hl.conversion (hl.proper hw.proper hp).legible direction access depth optional

theorem Shaped.conversion_instanceOf {other : κ}
    (h : Shaped context records classOf schema (.instanceOf other))
    (hw : world.Setting context records classOf) (hs : self ∈ records) (hp : schema.Proper) :
    ∃ className, world.named (classOf self) className = other ∧
      ∀ direction access depth optional,
        Conversion.ofSchema direction context schema access depth optional =
          .ok (.call className direction access) := by
  cases h with
  | record _ own hl hm =>
    exact ⟨_, hw.named self hs own hm, hl.conversion (hl.proper hw.proper hp).legible⟩

variable [DecidableEq κ] {value : Value κ ν}

theorem Shaped.of_accepts (h : Shaped context records classOf schema shape)
    (hw : world.Setting context records classOf) (hs : self ∈ records) (hp : schema.Proper)
    (ha : world.Accepts (classOf self) context value schema) :
    value.shape = shape ∧ value.IsGiven := by
  obtain ⟨test, ht, ha⟩ := ha
  cases h with
  | primitive name wrapper hn =>
    cases ht
    rw [World.passes_ofPrimitive] at ha
    cases name <;> cases value <;> simp_all [World.Admits, Value.shape, Value.IsGiven]
  | enum _ own hl =>
    rw [hl.test (hl.proper hw.proper hp).legible] at ht
    cases ht
    obtain ⟨symbol, -, rfl⟩ := World.passes_isOneOf.1 ha
    exact ⟨rfl, by simp [Value.IsGiven]⟩
  | record _ own hl hm =>
    rw [hl.test (hl.proper hw.proper hp).legible] at ht
    cases ht
    obtain ⟨properties, rfl⟩ := World.passes_isInstance.1 ha
    rw [hw.named self hs own hm]
    exact ⟨rfl, by simp [Value.IsGiven]⟩
  | array before after items =>
    cases ht
    obtain ⟨items, rfl⟩ := World.passes_isArray.1 ha
    exact ⟨rfl, by simp [Value.IsGiven]⟩
  | map before after values =>
    cases ht
    obtain ⟨properties, rfl⟩ := World.passes_isPlainObject.1 ha
    exact ⟨rfl, by simp [Value.IsGiven]⟩

section Fits

variable {related : Record → Value κ ν → Value κ ν → Prop} {restored : Value κ ν}

theorem Shaped.accepts (h : Shaped context records classOf schema shape)
    (hw : world.Setting context records classOf) (hs : self ∈ records) (hp : schema.Proper)
    (hc : ∀ own ∈ records, ∀ value restored, related own value restored →
      ∃ properties, value = .object (some (classOf own)) properties)
    (hf : world.Fits context related schema value restored) :
    world.Accepts (classOf self) context value schema := by
  have hl : ∀ definition, context.Leads schema definition →
      world.passes (classOf self) value (definition.test context.options) →
      world.Accepts (classOf self) context value schema :=
    fun definition hl ht => ⟨_, hl.test (hl.proper hw.proper hp).legible, ht⟩
  cases h with
  | primitive name wrapper hn =>
    rw [World.Fits] at hf
    exact ⟨_, rfl, world.passes_ofPrimitive.2 hf.1⟩
  | enum _ own ho =>
    rw [world.fits_of_leads context related ho] at hf
    exact hl (.enum own) ho (World.passes_isOneOf.2 hf.1)
  | record _ own ho hm =>
    rw [world.fits_of_leads context related ho] at hf
    obtain ⟨properties, rfl⟩ := hc own hm value restored hf
    refine hl (.record own) ho (World.passes_isInstance.2 ⟨properties, ?_⟩)
    rw [hw.named self hs own hm]
  | array before after items =>
    rw [World.Fits] at hf
    obtain ⟨pairs, rfl, -⟩ := hf
    exact ⟨_, rfl, World.passes_isArray.2 ⟨_, rfl⟩⟩
  | map before after values =>
    rw [World.Fits] at hf
    obtain ⟨entries, -, rfl, -⟩ := hf
    exact ⟨_, rfl, World.passes_isPlainObject.2 ⟨_, rfl⟩⟩

end Fits

section Conversions

variable {call : κ → Direction → Value κ ν → Except Failure (Value κ ν)} {direction : Direction}
  {result : Value κ ν} {left right : Schema}

theorem Converts.of_eq
    (h : Converts world (classOf self) call context direction false left value result)
    (he : ∀ access depth, Conversion.ofSchema direction context left access depth false =
      Conversion.ofSchema direction context right access depth false) :
    Converts world (classOf self) call context direction false right value result := by
  intro scope access depth hb hv
  obtain ⟨conversion, ho, hx⟩ := h scope access depth hb hv
  exact ⟨conversion, he access depth ▸ ho, hx⟩

/-- Alternatives of one shape convert alike, if they do where they have one name. -/
theorem Converts.congr (hl : Shaped context records classOf left shape)
    (hr : Shaped context records classOf right shape)
    (hw : world.Setting context records classOf) (hs : self ∈ records) (hp : left.Proper)
    (hq : right.Proper)
    (hn : context.typeName left = context.typeName right → ∀ direction access depth,
      Conversion.ofSchema direction context left access depth false =
        Conversion.ofSchema direction context right access depth false)
    (h : Converts world (classOf self) call context direction false left value result) :
    Converts world (classOf self) call context direction false right value result := by
  intro scope access depth hb hv
  obtain ⟨conversion, ho, he⟩ := h scope access depth hb hv
  cases shape with
  | scalar =>
    rw [hl.conversion_scalar hw hp] at ho
    cases ho
    exact ⟨_, hr.conversion_scalar hw hq direction access depth false, he⟩
  | instanceOf other =>
    obtain ⟨className, hc, hl⟩ := hl.conversion_instanceOf hw hs hp
    obtain ⟨name, hd, hr⟩ := hr.conversion_instanceOf hw hs hq
    rw [hl] at ho
    cases ho
    refine ⟨_, hr direction access depth false, ?_⟩
    unfold World.eval at he ⊢
    rw [hc] at he
    rw [hd]
    exact he
  | list =>
    cases hl
    cases hr
    exact h.of_eq (hn rfl direction) scope access depth hb hv
  | plain =>
    cases hl
    cases hr
    exact h.of_eq (hn rfl direction) scope access depth hb hv

end Conversions

end AvroBindings.Runtime
