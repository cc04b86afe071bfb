import AvroBindings.Proofs.Code.Skeleton.Declarations
import AvroBindings.Proofs.Schema.Skeleton.Passes

/-! The bindings of a document are those of its skeleton. The skeleton registers the same names, and
its definitions are the skeletons of the definitions, in the same order. -/

namespace AvroBindings

namespace Table

theorem insert_bare (table : Table) (name : Json) (definition : Definition) :
    table.bare.insert name definition.bare = (table.insert name definition).bare := by
  induction table with
  | nil => rfl
  | cons entry rest ih =>
    obtain ⟨key, other⟩ := entry
    change insert name definition.bare ((key, other.bare) :: bare rest) = _
    rw [insert, insert]
    split
    · rfl
    · rw [ih]
      rfl

def enter (table : Table) (definition : Definition) : Except Error Table := do
  let name ← definition.attributes.qualifiedName
  if name.isKey then return table.insert name definition else throw (.notHashable name)

theorem enter_bare (table : Table) (definition : Definition) :
    table.bare.enter definition.bare = (table.enter definition).map bare := by
  unfold enter
  rw [definition.sharesName_bare.qualifiedName]
  cases definition.attributes.qualifiedName with
  | error e => rfl
  | ok name =>
    simp only [Traversal.ok_bind, insert_bare]
    split <;> rfl

theorem ofDefinitions_bare (definitions : List Definition) :
    ofDefinitions (definitions.map Definition.bare) = (ofDefinitions definitions).map bare := by
  have hf (table : Table) : (definitions.map Definition.bare).foldlM enter table.bare =
      (definitions.foldlM enter table).map bare := by
    induction definitions generalizing table with
    | nil => rfl
    | cons definition rest ih =>
      rw [List.map_cons, List.foldlM_cons, List.foldlM_cons, enter_bare]
      cases table.enter definition with
      | error e => rfl
      | ok entered => exact ih entered
  exact hf []

end Table

def Declaration.AlikeBeside (left right : Json × Declaration) : Prop :=
  left.1 = right.1 ∧ left.2.Alike right.2

namespace Inventory

def bare (inventory : Inventory) : Inventory :=
  ⟨inventory.enums.map Enum.bare, inventory.records.map Record.bare, inventory.table.bare⟩

theorem filterMap_bare {α : Type} {kind? : Definition → Option α} {image : α → α}
    (hk : ∀ definition, kind? definition.bare = (kind? definition).map image)
    (definitions : List Definition) :
    (definitions.map Definition.bare).filterMap kind? = (definitions.filterMap kind?).map image := by
  rw [List.filterMap_map, List.map_filterMap]
  exact congrArg (List.filterMap · definitions) (funext hk)

theorem ofSchema_bare {schema other : Schema} {definitions : List Definition}
    (h : schema.definitions = .ok definitions)
    (ho : other.definitions = .ok (definitions.map Definition.bare)) :
    ofSchema other = (ofSchema schema).map bare := by
  have hke : ∀ definition : Definition, definition.bare.enum? = definition.enum?.map Enum.bare := by
    rintro (own | own) <;> rfl
  have hkr : ∀ definition : Definition,
      definition.bare.record? = definition.record?.map Record.bare := by
    rintro (own | own) <;> rfl
  have he : ∀ own : Enum, own.bare.attributes.name = own.attributes.name :=
    fun own => own.sharesName_bare.name
  have hr : ∀ own : Record, own.bare.attributes.name = own.attributes.name :=
    fun own => own.sharesName_bare.name
  unfold ofSchema
  rw [h, ho, Traversal.ok_bind, Traversal.ok_bind,
    filterMap_bare hke, filterMap_bare hkr,
    sortByName_map Enum.bare he, sortByName_map Record.bare hr]
  cases sortByName _ (definitions.filterMap Definition.enum?) with
  | error e => rfl
  | ok enums =>
    cases sortByName _ (definitions.filterMap Definition.record?) with
    | error e => rfl
    | ok records =>
      have hm : (enums.map Enum.bare).map Definition.enum ++
          (records.map Record.bare).map Definition.record =
            (enums.map Definition.enum ++ records.map Definition.record).map Definition.bare := by
        rw [List.map_append, List.map_map, List.map_map, List.map_map, List.map_map]
        rfl
      simp only [Except.map, Traversal.ok_bind, hm, Table.ofDefinitions_bare]
      cases Table.ofDefinitions (enums.map Definition.enum ++ records.map Definition.record) <;> rfl

variable {inventory : Inventory} {schema : Schema} {context : Context}

theorem classes_bare (inventory : Inventory) (options : Options) :
    inventory.bare.classes options = (inventory.classes options).map Record.bare := by
  unfold classes
  split <;> rfl

theorem corresponds_beside {α : Type} {f g : α → Except Error Declaration} (space : α → Json)
    (image : α → α) (hs : ∀ own, space (image own) = space own) {items : List α}
    (h : ∀ own ∈ items, Corresponds Declaration.Alike (f own) (g (image own))) :
    Corresponds (List.Forall₂ Declaration.AlikeBeside)
      (items.mapM fun own => (f own).map (Prod.mk (space own)))
      ((items.map image).mapM fun own => (g own).map (Prod.mk (space own))) :=
  .mapM image fun own hm => (h own hm).map fun _ _ ha => ⟨(hs own).symm, ha⟩

theorem corresponds_declared (h : inventory.Of schema) (hw : schema.WellFormed)
    (hc : context.Proper) :
    Corresponds (List.Forall₂ Declaration.AlikeBeside) (inventory.declared context)
      (inventory.bare.declared context.bare) := by
  have hr := h.record_wellFormed hw
  have hs : ∀ own : Record, own.bare.attributes.space = own.attributes.space :=
    fun own => own.sharesName_bare.space
  have hs' : ∀ own : Enum, own.bare.attributes.space = own.attributes.space :=
    fun own => own.sharesName_bare.space
  have he := corresponds_beside (·.attributes.space) Enum.bare hs'
    fun own (_ : own ∈ inventory.enums) => Declaration.corresponds_ofEnum context.options own
  have hi := corresponds_beside (·.attributes.space) Record.bare hs
    fun own (hm : own ∈ inventory.records) => Declaration.corresponds_ofRecord hc (hr own hm)
  have hk := corresponds_beside (·.attributes.space) Record.bare hs
    fun own (hm : own ∈ inventory.classes context.options) =>
      Declaration.corresponds_classOfRecord hc (hr own (mem_classes.1 hm).2)
  unfold declared
  rw [Context.options_bare, classes_bare]
  exact he.bind fun _ _ _ _ he => hi.bind fun _ _ _ _ hi => hk.bind fun _ _ _ _ hk =>
    .ok (List.rel_append (List.rel_append he hi) hk)

end Inventory

namespace Schema

theorem fullNames_skeleton (schema : Schema) : schema.skeleton.fullNames = schema.fullNames := by
  change schema.skeleton.defined.map _ = schema.defined.map _
  rw [defined_skeleton, List.map_map]
  exact List.map_congr_left fun definition _ => definition.sharesName_bare.qualifiedText

variable {document : Schema}

theorem registry_skeleton (h : document.WellFormed) :
    document.skeleton.registry = document.registry := by
  rw [registry, registry, ← skeleton_named h .none, fullNames_skeleton]

theorem augmented_skeleton (h : document.WellFormed) :
    document.skeleton.augmented = document.augmented.skeleton := by
  rw [augmented, augmented, registry_skeleton h, ← skeleton_named h .none, skeleton_linked]

theorem augment_skeleton (h : document.WellFormed) :
    (document.skeleton.augment {}).2.result = (document.augment {}).2.result.map skeleton := by
  rw [augment_result h, augment_result (wellFormed_skeleton_iff.2 h), references_skeleton,
    registry_skeleton h, augmented_skeleton h]
  cases document.references.mapM document.registry.linkName <;> rfl

theorem generate_of_augment_error {options : Options} {e : Error}
    (h : (document.augment {}).2.result = .error e) :
    (generate options document).result = .error e := by
  unfold generate
  simp only [Emitting.result_bind]
  rw [h]
  rfl

theorem context_skeleton (h : document.WellFormed) (options : Options) (inventory : Inventory) :
    document.skeleton.context options inventory.bare =
      (document.context options inventory).bare := by
  rw [context, registry_skeleton h]
  rfl

/-- A well-formed document and its skeleton have the same bindings, or generating them fails alike. -/
theorem generate_skeleton (h : document.WellFormed) (options : Options) :
    Corresponds Eq (generate options document).result
      (generate options document.skeleton).result := by
  have hb := wellFormed_skeleton_iff.2 h
  have ha := augment_skeleton h
  cases hr : (document.augment {}).2.result with
  | error e =>
    rw [hr] at ha
    rw [generate_of_augment_error hr, generate_of_augment_error ha]
    exact .error (.refl e)
  | ok augmented =>
    rw [hr] at ha
    obtain ⟨inventory, hi, ho, hg⟩ :=
      generate_of_unambiguous h (unambiguous_of_augment h hr) options
    obtain ⟨other, hi', -, hg'⟩ :=
      generate_of_unambiguous hb (unambiguous_of_augment hb ha) options
    have hw := wellFormed_augmented h
    have hd : document.skeleton.augmented.definitions =
        .ok (document.augmented.defined.map Definition.bare) := by
      rw [augmented_skeleton h, definitions_eq (wellFormed_skeleton_iff.2 hw), defined_skeleton]
    rw [Inventory.ofSchema_bare (definitions_eq hw) hd, hi] at hi'
    cases hi'
    rw [hg, hg', context_skeleton h]
    refine (Inventory.corresponds_declared ho hw (proper_context h ho)).bind
      fun left right _ _ hr => .of_eq (fun _ => rfl) ?_
    have ht : List.Forall₂ (fun left right => (left.1, left.2.render) = (right.1, right.2.render))
        left right := hr.imp fun _ _ ⟨hs, ht⟩ => Prod.ext hs ht
    rw [Traversal.map_eq_of_forall₂ ht]

end Schema

end AvroBindings
