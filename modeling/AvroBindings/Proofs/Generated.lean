import AvroBindings.Proofs.Code.Failures
import AvroBindings.Proofs.Code.Grouping
import AvroBindings.Proofs.Inventory

/-! Generating the bindings of a well-formed document, told by its passes. References lead to the
definitions of the document, the declarations are those of its definitions, and nothing but a
declaration can fail once the references are linked. -/

namespace AvroBindings

theorem Emitting.result_mapM {ω α β : Type} (f : α → Emitting ω β) (items : List α) :
    (items.mapM f).result = items.mapM fun item => (f item).result := by
  induction items with
  | nil => rfl
  | cons item rest ih =>
    simp only [List.mapM_cons, Emitting.result_bind, Emitting.result_pure, ih]
    rfl

theorem declare_result {attributes : Attributes} (h : attributes.Named)
    (report : String → Event) (declaration : Except Error Declaration) :
    (declare report attributes declaration).result =
      declaration.map (Prod.mk attributes.space) := by
  unfold declare
  rw [h.qualifiedName]
  cases declaration <;> rfl

namespace Inventory

def classes (inventory : Inventory) (options : Options) : List Record :=
  if options.withClasses then inventory.records else []

/-- The declarations of an inventory, each beside its namespace. -/
def declared (inventory : Inventory) (context : Context) :
    Except Error (List (Json × Declaration)) := do
  let enums ← inventory.enums.mapM fun own =>
    (Declaration.ofEnum context.options own).map (Prod.mk own.attributes.space)
  let interfaces ← inventory.records.mapM fun own =>
    (Declaration.ofRecord context own).map (Prod.mk own.attributes.space)
  let classes ← (inventory.classes context.options).mapM fun own =>
    (Declaration.classOfRecord context own).map (Prod.mk own.attributes.space)
  return enums ++ interfaces ++ classes

variable {inventory : Inventory} {schema : Schema}

theorem Of.enum_proper (h : inventory.Of schema) (hw : schema.WellFormed) :
    ∀ own ∈ inventory.enums, own.Proper :=
  fun own hm => hw (.enum own) (h.mem_enums.1 hm)

theorem Of.record_wellFormed (h : inventory.Of schema) (hw : schema.WellFormed) :
    ∀ own ∈ inventory.records, (Schema.record own).WellFormed :=
  fun _ hm => hw.position (h.mem_records.1 hm)

theorem mem_classes {options : Options} {own : Record} :
    own ∈ inventory.classes options ↔ options.withClasses ∧ own ∈ inventory.records := by
  unfold classes
  split <;> simp_all

theorem declarations_result (h : inventory.Of schema) (hw : schema.WellFormed)
    (context : Context) :
    (inventory.declarations context).result = inventory.declared context := by
  have he : ∀ own ∈ inventory.enums, own.attributes.Named :=
    fun own hm => (h.enum_proper hw own hm).named
  have hr : ∀ own ∈ inventory.records, own.attributes.Named :=
    fun own hm => (h.record_wellFormed hw own hm).proper.named
  have hc : ∀ own ∈ inventory.classes context.options, own.attributes.Named :=
    fun own hm => hr own (mem_classes.1 hm).2
  unfold declarations declared
  simp only [Emitting.result_bind, Emitting.result_mapM]
  rw [Traversal.mapM_congr fun own hm => declare_result (he own hm) _ _,
    Traversal.mapM_congr fun own hm => declare_result (hr own hm) _ _]
  unfold classes at hc ⊢
  rw [Traversal.mapM_congr fun own hm => declare_result (hc own hm) _ _]
  rfl

theorem beside_eq_ok_iff {x : Except Error Declaration} {space other : Json}
    {own : Declaration} :
    x.map (Prod.mk other) = .ok (space, own) ↔ x = .ok own ∧ other = space := by
  cases x with
  | error e => simp [Except.map]
  | ok a => simp [Except.map, and_comm]

theorem mem_declared {context : Context} {declarations : List (Json × Declaration)}
    (h : inventory.declared context = .ok declarations) {space : Json} {own : Declaration} :
    (space, own) ∈ declarations ↔
      (∃ enum ∈ inventory.enums,
        Declaration.ofEnum context.options enum = .ok own ∧ enum.attributes.space = space) ∨
      (∃ record ∈ inventory.records,
        Declaration.ofRecord context record = .ok own ∧ record.attributes.space = space) ∨
      ∃ record ∈ inventory.classes context.options,
        Declaration.classOfRecord context record = .ok own ∧ record.attributes.space = space := by
  unfold declared at h
  obtain ⟨enums, he, h⟩ := Traversal.bind_eq_ok_iff.1 h
  obtain ⟨interfaces, hi, h⟩ := Traversal.bind_eq_ok_iff.1 h
  obtain ⟨classes, hc, h⟩ := Traversal.bind_eq_ok_iff.1 h
  cases h
  rw [List.append_assoc, List.mem_append, List.mem_append, Traversal.mem_iff_of_mapM he,
    Traversal.mem_iff_of_mapM hi, Traversal.mem_iff_of_mapM hc]
  simp only [beside_eq_ok_iff]

theorem exists_of_declared {context : Context} {declarations : List (Json × Declaration)}
    (h : inventory.declared context = .ok declarations) :
    (∀ enum ∈ inventory.enums, ∃ own, Declaration.ofEnum context.options enum = .ok own) ∧
    (∀ record ∈ inventory.records, ∃ own, Declaration.ofRecord context record = .ok own) ∧
    ∀ record ∈ inventory.classes context.options,
      ∃ own, Declaration.classOfRecord context record = .ok own := by
  unfold declared at h
  obtain ⟨enums, he, h⟩ := Traversal.bind_eq_ok_iff.1 h
  obtain ⟨interfaces, hi, h⟩ := Traversal.bind_eq_ok_iff.1 h
  obtain ⟨classes, hc, -⟩ := Traversal.bind_eq_ok_iff.1 h
  refine ⟨fun enum hm => ?_, fun record hm => ?_, fun record hm => ?_⟩
  · obtain ⟨entry, -, hf⟩ := Traversal.ok_of_mapM he hm
    exact ⟨entry.2, (beside_eq_ok_iff.1 hf).1⟩
  · obtain ⟨entry, -, hf⟩ := Traversal.ok_of_mapM hi hm
    exact ⟨entry.2, (beside_eq_ok_iff.1 hf).1⟩
  · obtain ⟨entry, -, hf⟩ := Traversal.ok_of_mapM hc hm
    exact ⟨entry.2, (beside_eq_ok_iff.1 hf).1⟩

theorem failsBy_declared (h : inventory.Of schema) (hw : schema.WellFormed) {context : Context}
    (hc : context.Proper) :
    FailsBy (fun e => ∃ own ∈ inventory.records, own.Faults context context.options.withClasses e)
      (inventory.declared context) := by
  have he : ∃ enums, (inventory.enums.mapM fun own =>
      (Declaration.ofEnum context.options own).map (Prod.mk own.attributes.space)) = .ok enums := by
    refine Traversal.exists_mapM_eq_ok fun own hm => ?_
    obtain ⟨declaration, hd⟩ := Declaration.exists_ofEnum context.options (h.enum_proper hw own hm)
    exact ⟨_, by rw [hd]; rfl⟩
  have hi := FailsBy.mapM fun own hm =>
    (Declaration.failsBy_ofRecord hc (h.record_wellFormed hw own hm)).map
      (Prod.mk own.attributes.space)
  have hk := FailsBy.mapM fun own (hm : own ∈ inventory.classes context.options) =>
    (Declaration.failsBy_classOfRecord hc
      (h.record_wellFormed hw own (mem_classes.1 hm).2)).map (Prod.mk own.attributes.space)
  obtain ⟨enums, he⟩ := he
  have hr := hi.bind fun interfaces _ => hk.bind_ok fun classes _ =>
    ⟨enums ++ interfaces ++ classes, rfl⟩
  unfold declared
  rw [he]
  refine hr.congr fun e => ?_
  simp only [mem_classes]
  constructor
  · rintro (⟨own, hm, type, ht, hf⟩ | ⟨own, ⟨hw, hm⟩, hf⟩)
    · exact ⟨own, hm, type, ht, hf.mono⟩
    · exact ⟨own, hm, hw ▸ hf⟩
  · rintro ⟨own, hm, hf⟩
    cases hc : context.options.withClasses with
    | true => exact .inr ⟨own, ⟨rfl, hm⟩, hc ▸ hf⟩
    | false => exact .inl ⟨own, hm, hc ▸ hf⟩

end Inventory

namespace Schema

variable {document : Schema} {inventory : Inventory} {options : Options}

def context (document : Schema) (options : Options) (inventory : Inventory) : Context :=
  ⟨options, document.registry, inventory.table⟩

theorem get_context (name : String) :
    (document.context options inventory).registry.get (.str name) =
      (document.registry.find name).map (·.map Json.str) := rfl

theorem resolve_of_none {name : String} (h : document.registry.find name = .ok none) :
    (document.context options inventory).resolve (.str name) =
      .error (.unresolvedReference (.str name)) := by
  unfold Context.resolve
  rw [get_context, h]
  rfl

theorem resolve_of_some (ho : inventory.Of document.augmented) {name full : String}
    (h : document.registry.find name = .ok (some full)) :
    ∃ definition ∈ document.augmented.defined, definition.attributes.qualifiedText = full ∧
      (document.context options inventory).resolve (.str name) = .ok definition := by
  have hm : full ∈ document.augmented.fullNames := mem_registry.1 (Registry.mem_of_find h)
  obtain ⟨own, hd, hq⟩ := List.mem_map.1 hm
  have hk : Json.str full ∈ inventory.table.map Prod.fst :=
    ho.table.mem_keys.2 ⟨own, hd, congrArg Json.str hq.symm⟩
  obtain ⟨definition, hf⟩ := Table.exists_find? hk
  obtain ⟨hd, hq⟩ := ho.table.of_find? hf
  have ht : (document.context options inventory).table.find? (.str full) = some definition := hf
  refine ⟨definition, hd, hq, ?_⟩
  unfold Context.resolve
  rw [get_context, h]
  simp only [bind, Except.bind, Except.map, Option.map_some]
  rw [ht]
  rfl

theorem of_resolve (ho : inventory.Of document.augmented) {name : String}
    {definition : Definition}
    (h : (document.context options inventory).resolve (.str name) = .ok definition) :
    definition ∈ document.augmented.defined ∧
      document.registry.find name = .ok (some definition.attributes.qualifiedText) := by
  cases hf : document.registry.find name with
  | error e =>
    unfold Context.resolve at h
    rw [get_context, hf] at h
    cases h
  | ok found =>
    cases found with
    | none =>
      rw [resolve_of_none hf] at h
      cases h
    | some full =>
      obtain ⟨own, hd, rfl, hr⟩ := resolve_of_some ho hf
      rw [hr] at h
      cases h
      exact ⟨hd, rfl⟩

theorem proper_of_mem_defined (h : document.WellFormed) {definition : Definition}
    (hm : definition ∈ document.augmented.defined) : definition.Proper :=
  wellFormed_augmented h definition.schema (mem_defined.1 hm)

theorem proper_context (h : document.WellFormed) (ho : inventory.Of document.augmented) :
    (document.context options inventory).Proper :=
  fun _ _ hr => proper_of_mem_defined h (of_resolve ho hr).1

theorem generate_of_ambiguous (h : document.WellFormed) (hu : ¬document.Unambiguous) :
    ∃ name ∈ document.references, document.registry.IsAmbiguous name ∧
      (generate options document).result = .error
        (.ambiguousReference name (Registry.sorted (document.registry.candidates name))) := by
  obtain ⟨name, hm, ha, he⟩ := augment_of_ambiguous h hu
  refine ⟨name, hm, ha, ?_⟩
  unfold generate
  simp only [Emitting.result_bind]
  rw [he]
  rfl

/-- Without ambiguous references all is declared, and the declarations are joined. -/
theorem generate_of_unambiguous (h : document.WellFormed) (hu : document.Unambiguous)
    (options : Options) :
    ∃ inventory, Inventory.ofSchema document.augmented = .ok inventory ∧
      inventory.Of document.augmented ∧
      (generate options document).result = (do
        let declarations ← inventory.declared (document.context options inventory)
        Bundle.join options (declarations.map fun (space, own) => (space, own.render))) := by
  have hw := wellFormed_augmented h
  obtain ⟨inventory, hi, ho⟩ := Inventory.exists_ofSchema hw (allSettled_augmented h)
  refine ⟨inventory, hi, ho, ?_⟩
  have hd := Inventory.declarations_result ho hw (document.context options inventory)
  unfold generate
  simp only [Emitting.result_bind, augment_of_unambiguous h hu, augment_fst h]
  change (Inventory.ofSchema document.augmented >>= _) = _
  rw [hi]
  change ((inventory.declarations (document.context options inventory)).result >>= _) = _
  rw [hd]
  rfl

theorem isSpace_of_mem_rendered (h : document.WellFormed)
    (ho : inventory.Of document.augmented) {context : Context}
    {declarations : List (Json × Declaration)}
    (hd : inventory.declared context = .ok declarations) :
    ∀ item ∈ declarations.map fun (space, own) => (space, own.render), item.1.IsSpace := by
  have hs : ∀ definition ∈ document.augmented.defined, definition.attributes.space.IsSpace :=
    fun definition hm => ((allSettled_augmented h).of_mem_defined hm).space
  have hr : ∀ own ∈ inventory.records, own.attributes.space.IsSpace :=
    fun own hm => hs (.record own) (mem_defined.2 (ho.mem_records.1 hm))
  intro item hm
  obtain ⟨⟨space, own⟩, hentry, rfl⟩ := List.mem_map.1 hm
  obtain ⟨enum, he, -, hx⟩ | ⟨record, hi, -, hx⟩ | ⟨record, hc, -, hx⟩ :=
    (Inventory.mem_declared hd).1 hentry
  · exact hx ▸ hs (.enum enum) (mem_defined.2 (ho.mem_enums.1 he))
  · exact hx ▸ hr record hi
  · exact hx ▸ hr record (Inventory.mem_classes.1 hc).2

theorem exists_join (h : document.WellFormed) (ho : inventory.Of document.augmented)
    {context : Context} {declarations : List (Json × Declaration)}
    (hd : inventory.declared context = .ok declarations) (options : Options) :
    ∃ text, Bundle.join options (declarations.map fun (space, own) => (space, own.render)) =
      .ok text := by
  obtain ⟨groups, -, he, -⟩ := Bundle.exists_join options (isSpace_of_mem_rendered h ho hd)
  exact ⟨_, he⟩

/-- Where bindings are generated, no reference is ambiguous, and they join the declarations. -/
theorem exists_of_generate (h : document.WellFormed) {text : String}
    (hg : (generate options document).result = .ok text) :
    document.Unambiguous ∧ ∃ inventory, Inventory.ofSchema document.augmented = .ok inventory ∧
      inventory.Of document.augmented ∧
      ∃ declarations, inventory.declared (document.context options inventory) = .ok declarations ∧
        Bundle.join options (declarations.map fun (space, own) => (space, own.render)) =
          .ok text := by
  have hu : document.Unambiguous := by
    by_contra hu
    obtain ⟨name, -, -, he⟩ := @generate_of_ambiguous document options h hu
    rw [he] at hg
    cases hg
  obtain ⟨inventory, hi, ho, he⟩ := generate_of_unambiguous h hu options
  rw [he] at hg
  obtain ⟨declarations, hd, hj⟩ := Traversal.bind_eq_ok_iff.1 hg
  exact ⟨hu, inventory, hi, ho, declarations, hd, hj⟩

end Schema

end AvroBindings
