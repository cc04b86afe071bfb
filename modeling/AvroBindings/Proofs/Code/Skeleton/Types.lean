import AvroBindings.Proofs.Code.Rows
import AvroBindings.Proofs.Generated
import AvroBindings.Proofs.Schema.Skeleton.Basic

/-! Generated code sees nothing of a schema but its skeleton. A type, a conversion and a declaration
are written alike for a schema and for its skeleton, or fail alike. -/

namespace AvroBindings

/-- Two definitions have the same name in the same namespace. -/
structure Attributes.SharesName (left right : Attributes) : Prop where
  name : left.name = right.name
  space : left.space = right.space

namespace Attributes.SharesName

variable {left right : Attributes}

theorem qualifiedName (h : left.SharesName right) : left.qualifiedName = right.qualifiedName := by
  unfold Attributes.qualifiedName
  rw [h.name, h.space]

theorem interfaceName (h : left.SharesName right) (options : Options) :
    left.interfaceName options = right.interfaceName options := by
  unfold Attributes.interfaceName
  rw [h.name]

theorem referenceName (h : left.SharesName right) (options : Options) :
    left.referenceName options = right.referenceName options := by
  funext name
  unfold Attributes.referenceName
  rw [h.space]

theorem qualifiedInterfaceName (h : left.SharesName right) (options : Options) :
    left.qualifiedInterfaceName options = right.qualifiedInterfaceName options := by
  unfold Attributes.qualifiedInterfaceName
  rw [h.interfaceName, h.referenceName]

theorem qualifiedDeclarationName (h : left.SharesName right) (options : Options) :
    left.qualifiedDeclarationName options = right.qualifiedDeclarationName options := by
  unfold Attributes.qualifiedDeclarationName
  rw [h.name, h.referenceName]

theorem qualifiedText (h : left.SharesName right) : left.qualifiedText = right.qualifiedText := by
  unfold Attributes.qualifiedText
  rw [h.qualifiedName]

theorem shortName (h : left.SharesName right) : left.shortName = right.shortName := by
  unfold Attributes.shortName
  rw [h.name]

end Attributes.SharesName

theorem Enum.sharesName_bare (own : Enum) : own.bare.attributes.SharesName own.attributes :=
  ⟨Attributes.name_only (by decide), Attributes.space_only (by decide)⟩

theorem Record.sharesName_bare (own : Record) : own.bare.attributes.SharesName own.attributes := by
  rw [attributes_bare]
  exact ⟨Attributes.name_only (by decide), Attributes.space_only (by decide)⟩

theorem Definition.sharesName_bare (definition : Definition) :
    definition.bare.attributes.SharesName definition.attributes := by
  cases definition with
  | enum own => exact own.sharesName_bare
  | record own => exact own.sharesName_bare

theorem Enum.symbols_bare (own : Enum) : own.bare.symbols = own.symbols := by
  unfold symbols
  rw [show own.bare.attributes.get? "symbols" = own.attributes.get? "symbols" from
    Attributes.get?_only_of_mem (by decide)]

section Definition

variable (options : Options) (definition : Definition)

theorem TypeExpr.ofDefinition_bare :
    ofDefinition options definition.bare = ofDefinition options definition := by
  cases definition with
  | enum own => simp only [Definition.bare, ofDefinition, own.sharesName_bare.qualifiedDeclarationName]
  | record own => simp only [Definition.bare, ofDefinition, own.sharesName_bare.qualifiedInterfaceName]

theorem Choice.ofDefinition_bare {α : Type} {choice : Choice α}
    (he : ∀ own : Enum, choice.ofEnum own.bare = choice.ofEnum own) :
    choice.ofDefinition options definition.bare = choice.ofDefinition options definition := by
  cases definition with
  | enum own => exact he own
  | record own =>
    simp only [Definition.bare, ofDefinition, own.sharesName_bare.qualifiedDeclarationName]

theorem Conversion.deserializeDefinition_bare (access : Access) :
    deserializeDefinition options access definition.bare =
      deserializeDefinition options access definition := by
  cases definition with
  | enum own => rfl
  | record own =>
    simp only [Definition.bare, deserializeDefinition, own.sharesName_bare.qualifiedDeclarationName]

theorem Conversion.serializeDefinition_bare (access : Access) :
    serializeDefinition options access definition.bare =
      serializeDefinition options access definition := by
  cases definition with
  | enum own => rfl
  | record own =>
    simp only [Definition.bare, serializeDefinition, own.sharesName_bare.qualifiedDeclarationName]

theorem Definition.proper_bare (h : definition.Proper) : definition.bare.Proper := by
  cases definition with
  | enum own => exact Enum.proper_bare_iff.2 h
  | record own => exact Record.proper_bare_iff.2 h

end Definition

def Table.bare (table : Table) : Table := table.map fun entry => (entry.1, entry.2.bare)

theorem Table.find?_bare (table : Table) (name : Json) :
    table.bare.find? name = (table.find? name).map Definition.bare := by
  induction table with
  | nil => rfl
  | cons entry rest ih =>
    obtain ⟨key, definition⟩ := entry
    rw [bare, List.map_cons, find?, find?]
    split
    · rfl
    · exact ih

def Context.bare (context : Context) : Context := { context with table := context.table.bare }

variable {context : Context}

theorem Context.options_bare : context.bare.options = context.options := rfl

theorem Context.resolve_bare (reference : Json) :
    context.bare.resolve reference = (context.resolve reference).map Definition.bare := by
  unfold resolve
  have hr : context.bare.registry = context.registry := rfl
  have ht (name : Json) := context.table.find?_bare name
  rw [hr]
  cases context.registry.get reference with
  | error e => rfl
  | ok found =>
    cases found with
    | none => rfl
    | some name =>
      simp only [Traversal.ok_bind, bare, ht]
      cases context.table.find? name <;> rfl

theorem Context.resolve_bare_bind {β : Type} {f : Definition → Except Error β}
    (hf : ∀ definition, f definition.bare = f definition) (reference : Json) :
    (context.bare.resolve reference >>= f) = (context.resolve reference >>= f) := by
  rw [resolve_bare]
  cases context.resolve reference with
  | error e => rfl
  | ok definition => exact hf definition

theorem Context.Proper.bare (hc : context.Proper) : context.bare.Proper := by
  intro name definition h
  rw [resolve_bare] at h
  obtain ⟨own, ho, rfl⟩ := Traversal.map_eq_ok_iff.1 h
  exact own.proper_bare (hc name own ho)

namespace TypeExpr

/-- Two expressions are written alike, and grouped alike in an array. -/
structure Alike (left right : TypeExpr) : Prop where
  render : left.render = right.render
  isMultiUnion : left.isMultiUnion = right.isMultiUnion

theorem Alike.refl (type : TypeExpr) : type.Alike type := ⟨rfl, rfl⟩

theorem Alike.trans {first second third : TypeExpr} (h : first.Alike second)
    (ht : second.Alike third) : first.Alike third :=
  ⟨h.render.trans ht.render, h.isMultiUnion.trans ht.isMultiUnion⟩

namespace Alike

variable {left right : TypeExpr}

theorem array (h : left.Alike right) : (TypeExpr.array left).Alike (.array right) := by
  refine ⟨?_, rfl⟩
  rw [render_array, render_array, h.render, h.isMultiUnion]

theorem index (h : left.Alike right) : (TypeExpr.index left).Alike (.index right) := by
  refine ⟨?_, rfl⟩
  rw [render_index, render_index, h.render]

theorem union {left right : List TypeExpr} (h : List.Forall₂ Alike left right) :
    (TypeExpr.union left).Alike (.union right) := by
  have hr : left.map TypeExpr.render = right.map TypeExpr.render :=
    Traversal.map_eq_of_forall₂ (h.imp fun _ _ h => h.render)
  refine ⟨by rw [render_union, render_union, hr], ?_⟩
  cases h with
  | nil => rfl
  | cons _ h => cases h <;> rfl

theorem single (h : left.isMultiUnion = false) : (TypeExpr.union [left]).Alike left := by
  refine ⟨?_, h.symm⟩
  rw [render_union]
  simp

end Alike

theorem isText_of_mapM (hc : context.Proper) {alternatives : List Schema}
    (h : ∀ alternative ∈ alternatives, alternative.WellFormed) {types : List TypeExpr}
    (ht : alternatives.mapM (ofSchema context) = .ok types) : ∀ type ∈ types, type.IsText := by
  intro type hm
  obtain ⟨alternative, ha, ho⟩ := Traversal.of_mem_mapM ht hm
  exact isText_ofSchema hc.legible (h alternative ha).proper.legible ho

theorem corresponds_alone (hc : context.Proper) {schema : Schema} (h : schema.WellFormed) :
    Corresponds Alike (ofSchema context schema) (ofSchema context schema.alone) := by
  obtain he | ⟨he, hu, -⟩ := schema.alone_cases
  · rw [he]
    exact .refl Alike.refl _
  · generalize schema.alone = only at he hu ⊢
    subst he
    have hw := Schema.wellFormed_union.1 h
    have ht : ofSchema context (.union [only]) = ofSchema context only >>= fun type =>
        unionOf [type] := by
      rw [ofSchema_union, List.mapM_cons, List.mapM_nil]
      cases ofSchema context only <;> rfl
    cases ho : ofSchema context only with
    | error e =>
      rw [ht, ho]
      exact .error (.refl e)
    | ok type =>
      have hx : type.IsText := isText_ofSchema hc.legible (hw only (by simp)).proper.legible ho
      rw [ht, ho, Traversal.ok_bind, unionOf_eq (by simpa using hx)]
      exact .ok (.single (isMultiUnion_ofSchema hu ho))

/-- The type of a schema and that of its skeleton are written alike. -/
theorem corresponds_bare (hc : context.Proper) {schema : Schema} (h : schema.WellFormed) :
    Corresponds Alike (ofSchema context schema) (ofSchema context.bare schema.bare) := by
  induction schema using Schema.byChildren with
  | step schema ih =>
    have hi : ∀ child ∈ schema.children,
        Corresponds Alike (ofSchema context child) (ofSchema context.bare child.bare) :=
      fun child hm => ih child hm (h.child hm)
    have hs : ∀ child ∈ schema.children,
        Corresponds Alike (ofSchema context child) (ofSchema context.bare child.skeleton) :=
      fun child hm => (hi child hm).trans
        (corresponds_alone hc.bare (Schema.wellFormed_bare_iff.2 (h.child hm)))
        fun _ _ _ => Alike.trans
    cases schema with
    | primitive name wrapper => exact .ok (.refl _)
    | reference name =>
      refine .of_eq Alike.refl ?_
      rw [Schema.bare, ofSchema, ofSchema]
      exact (Context.resolve_bare_bind (ofDefinition_bare context.options) _).symm
    | enum own => exact .of_eq Alike.refl (ofDefinition_bare context.options (.enum own)).symm
    | record own => exact .of_eq Alike.refl (ofDefinition_bare context.options (.record own)).symm
    | union alternatives =>
      have hw := Schema.wellFormed_union.1 h
      rw [Schema.bare, Schema.bareAll_eq, ofSchema_union, ofSchema_union]
      refine (Corresponds.mapM Schema.bare hi).bind fun types others ht ho hr => ?_
      have hb : ∀ alternative ∈ alternatives.map Schema.bare, alternative.WellFormed :=
        List.forall_mem_map.2 fun own hm => Schema.wellFormed_bare_iff.2 (hw own hm)
      rw [unionOf_eq (isText_of_mapM hc hw ht), unionOf_eq (isText_of_mapM hc.bare hb ho)]
      exact .ok (.union hr)
    | array before items after =>
      cases items with
      | none => cases h.proper
      | some items =>
        rw [Schema.bare, ofSchema, ofSchema]
        exact (hs items (by simp)).bind fun _ _ _ _ h => .ok h.array
    | map before values after =>
      cases values with
      | none => cases h.proper
      | some values =>
        rw [Schema.bare, ofSchema, ofSchema]
        exact (hs values (by simp)).bind fun _ _ _ _ h => .ok h.index
    | unknown value => exact .error (.refl _)

theorem corresponds_skeleton (hc : context.Proper) {schema : Schema} (h : schema.WellFormed) :
    Corresponds Alike (ofSchema context schema) (ofSchema context.bare schema.skeleton) :=
  (corresponds_bare hc h).trans (corresponds_alone hc.bare (Schema.wellFormed_bare_iff.2 h))
    fun _ _ _ => Alike.trans

end TypeExpr

namespace Schema

variable (schema : Schema)

theorem isMultiUnion_bare : schema.bare.isMultiUnion = schema.isMultiUnion := by
  cases schema with
  | union alternatives =>
    match alternatives with
    | [] | [_] | _ :: _ :: _ => rfl
  | array before items after => cases items <;> rfl
  | map before values after => cases values <;> rfl
  | _ => rfl

theorem isOptional_bare : schema.bare.isOptional = schema.isOptional := by
  cases schema with
  | union alternatives =>
    match alternatives with
    | [] => rfl
    | first :: _ => exact first.isNull_bare
  | array before items after => cases items <;> rfl
  | map before values after => cases values <;> rfl
  | _ => rfl

theorem isMultiUnion_skeleton : schema.skeleton.isMultiUnion = schema.isMultiUnion := by
  rw [← schema.isMultiUnion_bare]
  unfold skeleton
  obtain he | ⟨he, hu, -⟩ := schema.bare.alone_cases
  · rw [he]
  · generalize schema.bare.alone = only at he hu
    rw [he]
    cases only <;> first | rfl | cases hu

theorem isOptional_skeleton : schema.skeleton.isOptional = schema.isOptional := by
  rw [← schema.isOptional_bare]
  unfold skeleton
  obtain he | ⟨he, hu, hn⟩ := schema.bare.alone_cases
  · rw [he]
  · generalize schema.bare.alone = only at he hu hn
    rw [he]
    refine Eq.trans ?_ hn.symm
    cases only <;> first | rfl | cases hu

theorem nonNull_bare (alternatives : List Schema) :
    nonNull (alternatives.map bare) = (nonNull alternatives).map bare := by
  unfold nonNull
  rw [List.filter_map]
  congr 2
  funext alternative
  rw [Function.comp_apply, isNull_bare]

end Schema

theorem TypeExpr.ofProperty_eq {schema : Schema} (h : schema.isMultiUnion = false) :
    ofProperty context schema = ofSchema context schema := by
  unfold ofProperty
  split
  next => cases h
  next => rfl

theorem TypeExpr.corresponds_ofProperty (hc : context.Proper) {schema : Schema}
    (h : schema.WellFormed) :
    Corresponds Alike (ofProperty context schema) (ofProperty context.bare schema.skeleton) := by
  cases hm : schema.isMultiUnion with
  | false =>
    rw [ofProperty_eq hm, ofProperty_eq (schema.isMultiUnion_skeleton.trans hm)]
    exact corresponds_skeleton hc h
  | true =>
    unfold Schema.isMultiUnion at hm
    split at hm
    next first second rest =>
      have hr : (Schema.union (second :: rest)).WellFormed := by
        rw [Schema.wellFormed_union] at h ⊢
        exact fun other ho => h other (List.mem_cons_of_mem first ho)
      change Corresponds Alike
        (ofSchema context (if first.isNull then .union (second :: rest) else _))
        (ofSchema context.bare (if first.bare.isNull then (Schema.union (second :: rest)).bare
          else (Schema.union (first :: second :: rest)).bare))
      rw [Schema.isNull_bare]
      split
      · exact corresponds_bare hc hr
      · exact corresponds_bare hc h
    next => cases hm

theorem Choice.corresponds_bare {α : Type} {choice : Choice α}
    (he : ∀ own : Enum, choice.ofEnum own.bare = choice.ofEnum own) (schema : Schema) :
    Corresponds Eq (choice.ofSchema context schema) (choice.ofSchema context.bare schema.bare) := by
  have hd (definition : Definition) := ofDefinition_bare context.options definition he
  cases schema with
  | reference name =>
    refine .of_eq (fun _ => rfl) ?_
    rw [Schema.bare, ofSchema, ofSchema]
    exact (Context.resolve_bare_bind hd _).symm
  | enum own => exact .of_eq (fun _ => rfl) (hd (.enum own)).symm
  | record own => exact .of_eq (fun _ => rfl) (hd (.record own)).symm
  | primitive name wrapper => exact .ok rfl
  | array before items after => cases items <;> exact .ok rfl
  | map before values after => cases values <;> exact .ok rfl
  | union alternatives => exact .error (.union _ _)
  | unknown value => exact .error (.refl _)

theorem Tag.corresponds_bare (schema : Schema) :
    Corresponds Eq (ofSchema context schema) (ofSchema context.bare schema.bare) := by
  rw [← choice_ofSchema]
  refine Choice.corresponds_bare (fun own => ?_) schema
  simp only [choice, own.sharesName_bare.qualifiedName]

theorem Test.corresponds_bare (schema : Schema) :
    Corresponds Eq (ofSchema context schema) (ofSchema context.bare schema.bare) := by
  rw [← choice_ofSchema]
  refine Choice.corresponds_bare (fun own => ?_) schema
  simp only [choice, own.symbols_bare]

end AvroBindings
