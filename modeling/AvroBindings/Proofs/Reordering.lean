import AvroBindings.Proofs.EffectiveNames
import AvroBindings.Proofs.Success

/-! The order of the definitions of a document. Generated code depends on its context only by the
options and by what references lead to. Where all short names of definitions differ, a document that
is a union has the same bindings, or fails in the same way, in every order of its alternatives. -/

namespace AvroBindings

section Contexts

/-- Two contexts have the same options, and references lead to the same definitions in both. -/
structure Context.Resembles (left right : Context) : Prop where
  options : left.options = right.options
  resolve : ∀ name, left.resolve (.str name) = right.resolve (.str name)

variable {left right : Context}

theorem TypeExpr.ofSchema_congr (h : left.Resembles right) (schema : Schema) :
    ofSchema left schema = ofSchema right schema := by
  induction schema using Schema.byChildren with
  | step schema ih =>
    cases schema with
    | primitive name wrapper => simp only [ofSchema]
    | reference name => simp only [ofSchema, h.resolve, h.options]
    | enum own => simp only [ofSchema, h.options]
    | record own => simp only [ofSchema, h.options]
    | union alternatives =>
      have hm : alternatives.mapM (ofSchema left) = alternatives.mapM (ofSchema right) :=
        Traversal.mapM_congr ih
      rw [ofSchema, ofSchema, ofSchemas_eq, ofSchemas_eq, hm]
    | array before items after =>
      cases items with
      | none => simp only [ofSchema]
      | some items => rw [ofSchema, ofSchema, ih items (by simp)]
    | map before values after =>
      cases values with
      | none => simp only [ofSchema]
      | some values => rw [ofSchema, ofSchema, ih values (by simp)]
    | unknown value => simp only [ofSchema]

theorem TypeExpr.ofProperty_congr (h : left.Resembles right) (schema : Schema) :
    ofProperty left schema = ofProperty right schema := by
  unfold ofProperty
  split <;> exact ofSchema_congr h _

theorem Tag.ofSchema_congr (h : left.Resembles right) (schema : Schema) :
    ofSchema left schema = ofSchema right schema := by
  cases schema <;> simp only [ofSchema, h.resolve, h.options]

theorem Test.ofSchema_congr (h : left.Resembles right) (schema : Schema) :
    ofSchema left schema = ofSchema right schema := by
  cases schema <;> simp only [ofSchema, h.resolve, h.options]

def Schema.ConvertsAlike (left right : Context) (schema : Schema) : Prop :=
  ∀ direction access depth optional,
    Conversion.ofSchema direction left schema access depth optional =
      Conversion.ofSchema direction right schema access depth optional

theorem Branch.ofAlternative_congr (h : left.Resembles right) {alternative : Schema}
    (ha : alternative.ConvertsAlike left right) (direction : Direction) (access : Access)
    (depth : Int) :
    ofAlternative direction left access depth alternative =
      ofAlternative direction right access depth alternative := by
  unfold Schema.ConvertsAlike at ha
  cases direction with
  | deserialize => simp only [ofAlternative, Tag.ofSchema_congr h, ha]
  | serialize => simp only [ofAlternative, Tag.ofSchema_congr h, Test.ofSchema_congr h, ha]

namespace Conversion

theorem entriesType_congr (h : left.Resembles right) (values : Schema) (direction : Direction) :
    entriesType left values direction = entriesType right values direction := by
  cases direction with
  | deserialize => rw [entriesType, entriesType, TypeExpr.ofSchema_congr h]
  | serialize => rfl

theorem ofSchema_congr (h : left.Resembles right) (schema : Schema) :
    schema.ConvertsAlike left right := by
  induction schema using Schema.byChildren with
  | step schema ih =>
    intro direction access depth optional
    cases schema with
    | primitive name wrapper => simp only [ofSchema_primitive]
    | reference name =>
      cases direction with
      | deserialize => simp only [ofSchema, deserialize, h.resolve, h.options]
      | serialize => simp only [ofSchema, serialize, h.resolve, h.options]
    | enum own => cases direction <;> simp only [ofSchema, deserialize, serialize, h.options]
    | record own => cases direction <;> simp only [ofSchema, deserialize, serialize, h.options]
    | union alternatives =>
      by_cases hl : alternatives.length = 1
      · obtain ⟨only, rfl⟩ := List.length_eq_one_iff.1 hl
        rw [ofSchema_single, ofSchema_single]
        exact ih only (by simp) direction access depth optional
      · have hb : ∀ alternative ∈ Schema.nonNull alternatives, _ := fun alternative hm =>
          Branch.ofAlternative_congr h (ih alternative (Schema.mem_nonNull.1 hm).1) direction
            access depth
        rw [ofSchema_union _ _ _ _ _ hl, ofSchema_union _ _ _ _ _ hl, Traversal.mapM_congr hb]
    | array before items after =>
      cases items with
      | none => cases direction <;> simp only [ofSchema, deserialize, serialize]
      | some items => rw [ofSchema_array, ofSchema_array, ih items (by simp)]
    | map before values after =>
      cases values with
      | none => cases direction <;> simp only [ofSchema, deserialize, serialize]
      | some values =>
        rw [ofSchema_map, ofSchema_map, entriesType_congr h, ih values (by simp)]
    | unknown value => simp only [ofSchema_unknown]

end Conversion

theorem Property.ofField_congr (h : left.Resembles right) (field : Field) :
    ofField left field = ofField right field := by
  unfold ofField
  simp only [TypeExpr.ofProperty_congr h]

theorem Assignment.ofField_congr (h : left.Resembles right) (direction : Direction)
    (field : Field) : ofField left direction field = ofField right direction field := by
  have hc (schema : Schema) := Conversion.ofSchema_congr h schema direction
  unfold ofField
  cases direction <;> simp only [Conversion.ofSchema] at hc <;> simp only [hc]

theorem Method.ofRecord_congr (h : left.Resembles right) (direction : Direction)
    (record : Record) : ofRecord left direction record = ofRecord right direction record := by
  unfold ofRecord
  rw [funext (Assignment.ofField_congr h direction)]

namespace Declaration

theorem ofRecord_congr (h : left.Resembles right) (record : Record) :
    ofRecord left record = ofRecord right record := by
  unfold ofRecord
  rw [h.options, funext (Property.ofField_congr h)]

theorem classOfRecord_congr (h : left.Resembles right) (record : Record) :
    classOfRecord left record = classOfRecord right record := by
  unfold classOfRecord ClassDeclaration.ofRecord
  rw [h.options, funext (Property.ofField_congr h), Method.ofRecord_congr h,
    Method.ofRecord_congr h]

end Declaration

theorem Inventory.declared_congr (h : left.Resembles right) (inventory : Inventory) :
    inventory.declared left = inventory.declared right := by
  unfold declared
  simp only [h.options, Declaration.ofRecord_congr h, Declaration.classOfRecord_congr h]

end Contexts

namespace Attributes

variable {attributes : Attributes}

theorem Settled.lastSegment_qualifiedText (h : attributes.Settled) :
    lastSegment attributes.qualifiedText = attributes.shortName := by
  obtain ⟨name, hn, hd⟩ := h.name
  have hl : LastSegment name attributes.qualifiedText := by
    unfold qualifiedText Attributes.qualifiedName
    rw [hn]
    simp only [Except.map]
    unfold fullName
    split
    next => exact ⟨hd, .inr ⟨_, rfl⟩⟩
    next => exact ⟨hd, .inl rfl⟩
  rw [lastSegment_eq_iff.2 hl, shortName, hn]
  rfl

theorem shortName_settle (h : attributes.Named) {parent : Json} (hp : parent.IsSpace) :
    (attributes.settle parent).2.shortName = lastSegment attributes.shortName := by
  obtain ⟨outer, rfl⟩ : ∃ outer, parent = .space outer := by
    cases hp with
    | none => exact ⟨none, rfl⟩
    | text space => exact ⟨some space, rfl⟩
  obtain ⟨space, hn⟩ := Nearest.exists_nearest outer [attributes]
  obtain ⟨own, name, ho, hl, hs⟩ := settle_of_nearest h hn
  unfold shortName
  rw [hs, name_rename, ho]
  exact (lastSegment_eq_iff.2 hl).symm

end Attributes

namespace Schema

def shortNames (schema : Schema) : List String :=
  schema.defined.map fun definition => lastSegment definition.attributes.shortName

theorem shortNames_eq (schema : Schema) :
    schema.shortNames = (schema.definition?.map fun definition =>
      lastSegment definition.attributes.shortName).toList ++
        schema.children.flatMap shortNames := by
  unfold shortNames
  rw [defined_eq]
  cases schema.definition? <;> simp [List.map_flatMap]

theorem shortName_named {schema : Schema} (h : schema.Proper) {parent : Json}
    (hp : parent.IsSpace) :
    (schema.named parent).definition?.map (·.attributes.shortName) =
      schema.definition?.map fun definition => lastSegment definition.attributes.shortName := by
  cases schema with
  | enum own => exact congrArg some (Attributes.shortName_settle h.named hp)
  | record own =>
    simp only [named, definition?, Option.map_some, Definition.attributes, Record.attributes_named]
    exact congrArg some (Attributes.shortName_settle h.named hp)
  | array before items after => cases items <;> rfl
  | map before values after => cases values <;> rfl
  | _ => rfl

theorem map_shortName_named {schema : Schema} (h : schema.WellFormed) {parent : Json}
    (hp : parent.IsSpace) :
    (schema.named parent).defined.map (·.attributes.shortName) = schema.shortNames := by
  induction schema using byChildren generalizing parent with
  | step schema ih =>
    have hi := isSpace_innerSpace h.proper hp
    have hc : ∀ child ∈ schema.children,
        (child.named (schema.innerSpace parent)).defined.map (·.attributes.shortName) =
          child.shortNames :=
      fun child hm => ih child hm (h.child hm) hi
    rw [shortNames_eq, defined_eq, children_named, List.map_append, List.map_flatMap,
      List.flatMap_map, ← shortName_named h.proper hp, List.flatMap_def, List.flatMap_def,
      List.map_congr_left hc, Option.toList_map]

variable {document : Schema}

theorem map_shortName_augmented (h : document.WellFormed) :
    document.augmented.defined.map (·.attributes.shortName) = document.shortNames := by
  rw [augmented, defined_linked, List.map_map, ← map_shortName_named h .none]
  refine List.map_congr_left fun definition _ => ?_
  rw [Function.comp_apply, Definition.attributes_linked]

theorem unambiguous_of_nodup (h : document.WellFormed) (hn : document.shortNames.Nodup) :
    document.Unambiguous := by
  rintro name - ⟨-, first, hf, second, hs, hne, hl, hl'⟩
  rw [← map_shortName_augmented h] at hn
  have hq {full : String} (hf : full ∈ document.registry.names) :
      ∃ own ∈ document.augmented.defined, own.attributes.qualifiedText = full ∧
        own.attributes.shortName = lastSegment full := by
    obtain ⟨own, hm, rfl⟩ := List.mem_map.1 (mem_registry.1 hf)
    have hs := (allSettled_augmented h).of_mem_defined hm
    exact ⟨own, hm, rfl, hs.lastSegment_qualifiedText.symm⟩
  obtain ⟨own, hm, rfl, ho⟩ := hq hf
  obtain ⟨other, hm', rfl, ho'⟩ := hq hs
  rw [List.inj_on_of_nodup_map hn hm hm' (by rw [ho, ho', hl, hl'])] at hne
  exact hne rfl

end Schema

namespace Inventory

section Kind

variable {α : Type} (kind? : Definition → Option α) (attributes : α → Attributes)
  (hk : ∀ definition own, kind? definition = some own → attributes own = definition.attributes)

include hk

theorem nodup_shortName_filterMap {definitions : List Definition}
    (h : (definitions.map (·.attributes.shortName)).Nodup) :
    ((definitions.filterMap kind?).map fun own => (attributes own).shortName).Nodup := by
  rw [List.Nodup, List.pairwise_map] at h ⊢
  rw [List.pairwise_filterMap]
  refine h.imp fun hne own ho other ho' => ?_
  rw [hk _ own ho, hk _ other ho']
  exact hne

theorem sortByName_perm {left right : List Definition}
    (hd : ∀ definition ∈ right, definition.attributes.Named) (hp : left.Perm right)
    (hn : (right.map (·.attributes.shortName)).Nodup) :
    sortByName (fun own => (attributes own).name) (left.filterMap kind?) =
      sortByName (fun own => (attributes own).name) (right.filterMap kind?) := by
  have ht : ∀ own ∈ right.filterMap kind?,
      (attributes own).name = .ok (.str (attributes own).shortName) := by
    intro own hm
    obtain ⟨definition, hm, he⟩ := List.mem_filterMap.1 hm
    rw [hk definition own he]
    exact (hd definition hm).titled.name_eq
  have hf := hp.filterMap kind?
  rw [sortByName_eq ht, sortByName_eq fun own hm => ht own (hf.subset hm),
    sortedBy_perm (nodup_shortName_filterMap kind? attributes hk hn) hf]

end Kind

/-- Where short names differ, the inventory of a schema depends on what the schema defines, and not
on the order. -/
theorem ofSchema_perm {left right : Schema} (hl : left.WellFormed) (hr : right.WellFormed)
    (hp : left.defined.Perm right.defined)
    (hn : (right.defined.map (·.attributes.shortName)).Nodup) :
    Inventory.ofSchema left = Inventory.ofSchema right := by
  have hd : ∀ definition ∈ right.defined, definition.attributes.Named :=
    fun definition hm => Definition.Proper.named (hr _ (Schema.mem_defined.1 hm))
  have he := sortByName_perm Definition.enum? Enum.attributes
    (by rintro (own | own) _ h <;> cases h; rfl) hd hp hn
  have hc := sortByName_perm Definition.record? Record.attributes
    (by rintro (own | own) _ h <;> cases h; rfl) hd hp hn
  unfold ofSchema
  rw [Schema.definitions_eq hl, Schema.definitions_eq hr, Traversal.ok_bind, Traversal.ok_bind,
    he, hc]

end Inventory

namespace Schema

variable {alternatives others : List Schema}

theorem names_registry_perm (hp : others.Perm alternatives) :
    (union others).registry.names.Perm (union alternatives).registry.names := by
  refine (List.perm_ext_iff_of_nodup (nodup_registry _) (nodup_registry _)).2 fun name => ?_
  rw [mem_registry, mem_registry, fullNames_augmented, fullNames_augmented, fullNames_eq,
    fullNames_eq, children_named, children_named]
  exact ((hp.map _).flatMap_right _).mem_iff

theorem find_registry_perm (hp : others.Perm alternatives) (name : String) :
    (union others).registry.find name = (union alternatives).registry.find name :=
  Registry.find_perm (names_registry_perm hp)
    ((others_registry _).trans (others_registry _).symm) name

theorem resolution_perm (hp : others.Perm alternatives) :
    (union others).registry.resolution = (union alternatives).registry.resolution := by
  funext name
  unfold Registry.resolution
  rw [find_registry_perm hp]

theorem defined_augmented_perm (hp : others.Perm alternatives) :
    (union others).augmented.defined.Perm (union alternatives).augmented.defined := by
  rw [augmented, augmented, union_augmented, union_augmented, resolution_perm hp, defined_eq,
    defined_eq]
  exact (hp.map _).flatMap_right _

theorem shortNames_perm (hp : others.Perm alternatives) :
    (union others).shortNames.Perm (union alternatives).shortNames := by
  rw [shortNames_eq, shortNames_eq]
  exact hp.flatMap_right _

theorem resembles_perm (hp : others.Perm alternatives) (options : Options)
    (inventory : Inventory) :
    ((union others).context options inventory).Resembles
      ((union alternatives).context options inventory) where
  options := rfl
  resolve name := by
    unfold Context.resolve
    rw [get_context, get_context, find_registry_perm hp]
    rfl

/-- In a well-formed document that is a union, and in which all definitions have different short
names, the order of the alternatives does not matter: the bindings are the same text, or generating
them fails with the same error. -/
theorem generate_perm (h : (union alternatives).WellFormed)
    (hn : (union alternatives).shortNames.Nodup) (hp : others.Perm alternatives)
    (options : Options) :
    (generate options (union others)).result = (generate options (union alternatives)).result := by
  have hw : (union others).WellFormed :=
    wellFormed_union.2 fun own hm => wellFormed_union.1 h own (hp.subset hm)
  have hu := unambiguous_of_nodup h hn
  have hu' := unambiguous_of_nodup hw ((shortNames_perm hp).nodup_iff.2 hn)
  obtain ⟨inventory, hi, -, hg⟩ := generate_of_unambiguous h hu options
  obtain ⟨inventory', hi', -, hg'⟩ := generate_of_unambiguous hw hu' options
  rw [Inventory.ofSchema_perm (wellFormed_augmented hw) (wellFormed_augmented h)
    (defined_augmented_perm hp) (by rwa [map_shortName_augmented h]), hi] at hi'
  cases hi'
  rw [hg, hg', Inventory.declared_congr (resembles_perm hp options inventory)]

def paired : List Schema :=
  let sides : Schema := .array [("type", .str "array")]
    (some (.union [.reference "Side", .primitive .null none])) []
  [.record (.mk [("type", .str "record"), ("name", .str "Polygon"), ("namespace", .str "geo")]
      (.listed [.mk [("name", .str "sides")] (some sides) []]) []),
    .enum ⟨[("type", .str "enum"), ("name", .str "kind.Side"),
      ("symbols", .arr [.str "INNER", .str "OUTER"])]⟩]

theorem wellFormed_paired : (union paired).WellFormed := by
  refine wellFormed_union.2 fun alternative hm => ?_
  obtain rfl | rfl := List.mem_pair.1 hm
  · refine wellFormed_record.2 ⟨⟨⟨⟨_, rfl⟩, .inr ⟨_, rfl⟩⟩, ?_⟩, ?_⟩
    · simp only [Record.fields_mk, Fields.Proper, List.forall_mem_singleton]
      exact ⟨⟨_, rfl⟩, ⟨_, rfl⟩⟩
    · simp [Fields.types, Field.type?, wellFormed_array, wellFormed_union, wellFormed_reference,
        wellFormed_primitive]
  · exact wellFormed_enum.2 ⟨⟨⟨_, rfl⟩, .inl rfl⟩, .inr ⟨_, rfl⟩⟩

theorem generate_perm_paired :
    (union paired).WellFormed ∧ (union paired).shortNames = ["Polygon", "Side"] ∧
      (generate { withClasses := true } (union paired)).result.isOk ∧
      (generate { withClasses := true } (union paired.reverse)).result =
        (generate { withClasses := true } (union paired)).result := by
  have hs : (union paired).shortNames = ["Polygon", "Side"] := by
    unfold shortNames defined
    rw [positions_eq]
    decide +kernel
  exact ⟨wellFormed_paired, hs, by decide +kernel, generate_perm wellFormed_paired
    (by rw [hs]; decide) (List.reverse_perm paired) _⟩

end Schema

end AvroBindings
