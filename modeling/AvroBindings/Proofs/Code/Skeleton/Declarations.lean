import AvroBindings.Proofs.Code.Skeleton.Types

/-! Conversions and declarations of skeletons. They are written as those of the schemas are, and fail
where those fail. -/

namespace AvroBindings

def Conversion.Alike (left right : Conversion) : Prop := left.render = right.render

def Branch.Alike (left right : Branch) : Prop := left.render = right.render

def Method.Alike (left right : Method) : Prop := left.render = right.render

def Declaration.Alike (left right : Declaration) : Prop := left.render = right.render

namespace Conversion.Alike

variable {left right : Conversion}

theorem refl (conversion : Conversion) : conversion.Alike conversion := rfl

theorem elements (h : left.Alike right) (access : Access) (element : Binding) (braced : Bool) :
    (Conversion.elements access element braced left).Alike
      (.elements access element braced right) := by
  have hr (body : Conversion) : (Conversion.elements access element braced body).render =
      access.text ++ ".map((" ++ element.text ++ ": any) => " ++
        (if braced then Layout.braces ("return " ++ body.render) else body.render) ++ ")" := rfl
  rw [Alike, hr, hr, h]

theorem entries (h : left.Alike right) (access : Access) (depth : Int) {type other : TypeExpr}
    (ht : type.render = other.render) :
    (Conversion.entries access depth type left).Alike (.entries access depth other right) := by
  have hr (type : TypeExpr) (body : Conversion) :
      (Conversion.entries access depth type body).render = Layout.selfExecuting (
        "const " ++ (Binding.mk .keys depth).text ++ " = Object.keys(" ++ access.text ++ ")\n" ++
        "const " ++ (Binding.mk .output depth).text ++ ": " ++ type.render ++ " = \x7b\x7d\n" ++
        "for (const " ++ (Binding.mk .mapKey depth).text ++ " of " ++
        (Binding.mk .keys depth).text ++ ") " ++
        Layout.braces ("const " ++ (Binding.mk .mapValue depth).text ++ " = " ++ access.text ++
          "[" ++ (Binding.mk .mapKey depth).text ++ "]\n" ++ (Binding.mk .output depth).text ++
          "[" ++ (Binding.mk .mapKey depth).text ++ "] = " ++ body.render) ++
        "\nreturn " ++ (Binding.mk .output depth).text) := rfl
  rw [Alike, hr, hr, h, ht]

theorem dispatch {left right : List Branch} (h : List.Forall₂ Branch.Alike left right)
    (direction : Direction) :
    (Conversion.dispatch direction left).Alike (.dispatch direction right) := by
  have hr (branches : List Branch) : (Conversion.dispatch direction branches).render =
      Layout.dispatch (branches.map Branch.render) direction.failure := by
    rw [← Branch.renderAll_eq]
    rfl
  rw [Alike, hr, hr, Traversal.map_eq_of_forall₂ h]

end Conversion.Alike

namespace Branch

theorem alike_value {left right : Conversion} (h : left.Alike right) (access : Access)
    (test : Test) : (Branch.mk access test (.value left)).Alike (.mk access test (.value right)) := by
  have hr (body : Conversion) : (Branch.mk access test (.value body)).render =
      (test.text access.text, "return " ++ body.render) := rfl
  rw [Alike, hr, hr, h]

theorem alike_wrapped {left right : Conversion} (h : left.Alike right) (access : Access)
    (test : Test) (tag : Tag) :
    (Branch.mk access test (.wrapped tag left)).Alike (.mk access test (.wrapped tag right)) := by
  have hr (body : Conversion) : (Branch.mk access test (.wrapped tag body)).render =
      (test.text access.text, "return \x7b " ++ tag.key ++ ": " ++ body.render ++ " \x7d") := rfl
  rw [Alike, hr, hr, h]

theorem nullBranches_bare (direction : Direction) (optional : Bool) (access : Access)
    (alternatives : List Schema) :
    nullBranches direction optional access (alternatives.map Schema.bare) =
      nullBranches direction optional access alternatives := by
  unfold nullBranches
  rw [List.any_map]
  congr 2
  congr 1
  funext alternative
  exact alternative.isNull_bare

end Branch

variable {context : Context}

/-- The conversions of a schema and of its skeleton are written alike. -/
def Schema.ConvertsAsBare (context : Context) (direction : Direction) (schema : Schema) : Prop :=
  ∀ access depth optional, Corresponds Conversion.Alike
    (Conversion.ofSchema direction context schema access depth optional)
    (Conversion.ofSchema direction context.bare schema.bare access depth optional)

theorem Branch.corresponds_bare {direction : Direction} {alternative : Schema}
    (h : alternative.ConvertsAsBare context direction) (access : Access) (depth : Int) :
    Corresponds Branch.Alike (ofAlternative direction context access depth alternative)
      (ofAlternative direction context.bare access depth alternative.bare) := by
  cases direction with
  | deserialize =>
    refine (Tag.corresponds_bare alternative).bind fun tag other _ _ he => ?_
    subst he
    refine (h (access.tagged tag) depth false).bind fun left right _ _ hr => ?_
    exact .ok (alike_value hr _ _)
  | serialize =>
    refine (Test.corresponds_bare alternative).bind fun test other _ _ he => ?_
    subst he
    refine (Tag.corresponds_bare alternative).bind fun tag other _ _ he => ?_
    subst he
    refine (h access depth false).bind fun left right _ _ hr => ?_
    exact .ok (alike_wrapped hr _ _ _)

namespace Conversion

theorem ofDefinition_bare (direction : Direction) (options : Options) (access : Access)
    (definition : Definition) :
    ofDefinition direction options access definition.bare =
      ofDefinition direction options access definition := by
  cases direction with
  | deserialize => exact deserializeDefinition_bare options definition access
  | serialize => exact serializeDefinition_bare options definition access

theorem ofSchema_alone (direction : Direction) (schema : Schema) (access : Access) (depth : Int)
    (optional : Bool) :
    ofSchema direction context schema.alone access depth optional =
      ofSchema direction context schema access depth optional :=
  Schema.alone_congr (f := fun schema => ofSchema direction context schema access depth optional)
    (fun only => ofSchema_single direction context access depth optional only) schema

theorem corresponds_entriesType (hc : context.Proper) {values : Schema} (h : values.WellFormed)
    (direction : Direction) :
    Corresponds TypeExpr.Alike (entriesType context values direction)
      (entriesType context.bare values.skeleton direction) := by
  cases direction with
  | deserialize => exact (TypeExpr.corresponds_skeleton hc h).map fun _ _ h => h.index
  | serialize => exact .ok (.refl _)

theorem corresponds_bare (hc : context.Proper) (direction : Direction) {schema : Schema}
    (h : schema.WellFormed) : schema.ConvertsAsBare context direction := by
  induction schema using Schema.byChildren with
  | step schema ih =>
    intro access depth optional
    have hi : ∀ child ∈ schema.children, child.ConvertsAsBare context direction :=
      fun child hm => ih child hm (h.child hm)
    have hs : ∀ child ∈ schema.children, ∀ access depth optional, Corresponds Alike
        (ofSchema direction context child access depth optional)
        (ofSchema direction context.bare child.skeleton access depth optional) := by
      intro child hm access depth optional
      rw [Schema.skeleton, ofSchema_alone]
      exact hi child hm access depth optional
    have hd := ofDefinition_bare direction context.options access
    cases schema with
    | primitive name wrapper =>
      rw [Schema.bare, ofSchema_primitive, ofSchema_primitive]
      exact .ok rfl
    | reference name =>
      refine .of_eq Alike.refl ?_
      have hr := @Context.resolve_bare_bind context _ _ hd (.str name)
      cases direction <;> exact hr.symm
    | enum own =>
      refine .of_eq Alike.refl ?_
      cases direction <;> exact (hd (.enum own)).symm
    | record own =>
      refine .of_eq Alike.refl ?_
      cases direction <;> exact (hd (.record own)).symm
    | array before items after =>
      cases items with
      | none => cases h.proper
      | some items =>
        rw [Schema.bare, ofSchema_array, ofSchema_array]
        change Corresponds _ _ (Except.map (elements _ _ items.skeleton.isMultiUnion) _)
        rw [Schema.isMultiUnion_skeleton]
        exact (hs items (by simp) _ _ _).map fun _ _ hr => hr.elements _ _ _
    | map before values after =>
      cases values with
      | none => cases h.proper
      | some values =>
        rw [Schema.bare, ofSchema_map, ofSchema_map]
        have hv := Schema.wellFormed_map.1 h
        refine (corresponds_entriesType hc hv direction).bind fun _ _ _ _ ht => ?_
        exact (hs values (by simp) _ _ _).bind fun _ _ _ _ hr => .ok (hr.entries _ _ ht.render)
    | union alternatives =>
      rw [Schema.bare, Schema.bareAll_eq]
      by_cases hl : alternatives.length = 1
      · obtain ⟨only, rfl⟩ := List.length_eq_one_iff.1 hl
        rw [List.map_singleton, ofSchema_single, ofSchema_single]
        exact hi only (by simp) access depth optional
      · have hl' : (alternatives.map Schema.bare).length ≠ 1 := by rwa [List.length_map]
        rw [ofSchema_union _ _ _ _ _ hl, ofSchema_union _ _ _ _ _ hl', Schema.nonNull_bare,
          Branch.nullBranches_bare]
        have hb := Corresponds.mapM Schema.bare fun alternative hm =>
          Branch.corresponds_bare (hi alternative (Schema.mem_nonNull.1 hm).1) access depth
        refine hb.bind fun _ _ _ _ hr => .ok (.dispatch (List.rel_append ?_ hr) direction)
        exact List.forall₂_same.2 fun branch _ => rfl
    | unknown value =>
      rw [Schema.bare, ofSchema_unknown, ofSchema_unknown]
      exact .error (.refl _)

end Conversion

structure Property.Alike (left right : Property) : Prop where
  name : left.name = right.name
  text : left.text = right.text

theorem Property.corresponds_bare (hc : context.Proper) {field : Field} (h : field.Proper)
    (hw : ∀ type, field.type? = some type → type.WellFormed) :
    Corresponds Alike (ofField context field) (ofField context.bare field.bare) := by
  obtain ⟨name, type, hn, ht, hs⟩ := h.exists_eq
  rw [ofField_eq hn ht, ofField_eq (field.name_bare.trans hn) (Field.type_bare hs),
    type.isOptional_skeleton]
  refine (TypeExpr.corresponds_ofProperty hc (hw type hs)).map fun left right hr => ⟨rfl, ?_⟩
  rw [text, text, hr.render]

theorem Assignment.corresponds_bare (hc : context.Proper) (direction : Direction) {field : Field}
    (h : field.Proper) (hw : ∀ type, field.type? = some type → type.WellFormed) :
    Corresponds (fun left right => left.text = right.text) (ofField context direction field)
      (ofField context.bare direction field.bare) := by
  obtain ⟨name, type, hn, ht, hs⟩ := h.exists_eq
  rw [ofField_eq hn ht, ofField_eq (field.name_bare.trans hn) (Field.type_bare hs),
    type.isOptional_skeleton, Schema.skeleton, Conversion.ofSchema_alone]
  refine (Conversion.corresponds_bare hc direction (hw type hs) _ _ _).map fun left right hr => ?_
  rw [text, text, hr]

namespace Record

theorem fieldList_bare (own : Record) : own.bare.fieldList = own.fieldList.map Field.bare := by
  unfold fieldList
  rw [fields_bare]
  cases own.fields with
  | listed fields => exact Field.bareAll_eq fields
  | absent => rfl
  | other value => rfl

theorem corresponds_mapM {β : Type} {related : β → β → Prop} {f g : Field → Except Error β}
    {own : Record} (h : (Schema.record own).WellFormed)
    (hf : ∀ field : Field, field.Proper → (∀ type, field.type? = some type → type.WellFormed) →
      Corresponds related (f field) (g field.bare)) :
    Corresponds (List.Forall₂ related) (own.fieldList.mapM f) (own.bare.fieldList.mapM g) := by
  obtain ⟨hp, ht⟩ := Schema.wellFormed_record.1 h
  rw [fieldList_bare]
  exact .mapM Field.bare fun field hm => hf field (hp.of_mem hm) fun type hs =>
    ht type (mem_types.2 ⟨field, hm, hs⟩)

end Record

theorem Method.corresponds_bare (hc : context.Proper) (direction : Direction) {own : Record}
    (h : (Schema.record own).WellFormed) :
    Corresponds Alike (ofRecord context direction own)
      (ofRecord context.bare direction own.bare) := by
  have hp : own.Proper := (Schema.wellFormed_record.1 h).1
  have hm := Record.corresponds_mapM h fun field => Assignment.corresponds_bare hc direction
  rw [ofRecord_eq hp, ofRecord_eq (Record.proper_bare_iff.2 hp), own.sharesName_bare.shortName]
  refine hm.map fun left right hr => ?_
  have ht : object left = object right := by
    unfold object
    rw [Traversal.isEmpty_eq_of_forall₂ hr, Traversal.map_eq_of_forall₂ hr]
  cases direction <;> simp only [Alike, render, ht]

theorem Property.lineEach_eq {left right : List Property} (h : List.Forall₂ Alike left right)
    (line : Property → String) (hl : ∀ first second : Property, first.Alike second →
      line first = line second) :
    ClassDeclaration.lineEach line left = ClassDeclaration.lineEach line right := by
  have hn : List.Forall₂ (fun first second => line first ++ "\n" = line second ++ "\n")
      left right := h.imp fun first second h => by rw [hl first second h]
  unfold ClassDeclaration.lineEach
  rw [Traversal.map_eq_of_forall₂ hn]

namespace Declaration

theorem corresponds_ofEnum (options : Options) (own : Enum) :
    Corresponds Alike (ofEnum options own) (ofEnum options own.bare) := by
  have hr (own : Declaration) : own.Alike own := rfl
  refine .of_eq hr ?_
  unfold ofEnum
  rw [own.sharesName_bare.name, own.symbols_bare]

theorem render_interface (name : String) (properties : List Property) :
    (interface name properties).render = "export interface " ++ name ++ " \x7b\n" ++
      ClassDeclaration.lineEach (fun property => "  " ++ property.text) properties ++ "\x7d" := rfl

theorem corresponds_ofRecord (hc : context.Proper) {own : Record}
    (h : (Schema.record own).WellFormed) :
    Corresponds Alike (ofRecord context own)
      (ofRecord context.bare own.bare) := by
  have hp : own.Proper := (Schema.wellFormed_record.1 h).1
  have hm := Record.corresponds_mapM h fun field => Property.corresponds_bare hc
  rw [ofRecord_eq hp, ofRecord_eq (Record.proper_bare_iff.2 hp), own.sharesName_bare.shortName,
    Context.options_bare]
  refine hm.map fun left right hr => ?_
  have ht := Property.lineEach_eq hr (fun property => "  " ++ property.text)
    fun _ _ h => by rw [h.text]
  rw [Alike, render_interface, render_interface, ht]

theorem corresponds_classOfRecord (hc : context.Proper) {own : Record}
    (h : (Schema.record own).WellFormed) :
    Corresponds Alike (classOfRecord context own)
      (classOfRecord context.bare own.bare) := by
  have hp : own.Proper := (Schema.wellFormed_record.1 h).1
  have hm := Record.corresponds_mapM h fun field => Property.corresponds_bare hc
  have hs := own.sharesName_bare
  unfold classOfRecord
  rw [ClassDeclaration.ofRecord_eq hp, ClassDeclaration.ofRecord_eq (Record.proper_bare_iff.2 hp),
    hs.shortName, hs.qualifiedText]
  refine Corresponds.map (hm.bind fun left right _ _ hr => ?_) fun _ _ h => h
  refine (Method.corresponds_bare hc .deserialize h).bind fun _ _ _ _ hd => ?_
  refine (Method.corresponds_bare hc .serialize h).bind fun _ _ _ _ hw => .ok ?_
  have ht := Property.lineEach_eq hr (fun property => "  public readonly " ++ property.text)
    fun _ _ h => by rw [h.text]
  have hn := Property.lineEach_eq hr
    (fun property => "    this." ++ property.name ++ " = input." ++ property.name)
    fun _ _ h => by rw [h.name]
  have hf : ∀ own : ClassDeclaration, (classOf own).render = own.render := fun _ => rfl
  rw [Alike, hf, hf]
  unfold ClassDeclaration.render
  rw [ht, hn, Traversal.isEmpty_eq_of_forall₂ hr, hd, hw, Context.options_bare]

end Declaration

end AvroBindings
