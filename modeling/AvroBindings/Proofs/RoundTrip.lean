import AvroBindings.Proofs.Lexical
import AvroBindings.Proofs.Runtime.Methods
import Mathlib.Data.List.Nodup

/-! The round trip through generated classes. Whatever an instance is written to by the method of
its class, the other method restores it from that: for every document that classes are generated
for, with whatever nesting of arrays, maps, unions and records, and with records that refer to each
other. -/

open AvroBindings.Runtime

namespace AvroBindings

/-- Where the alternatives of a union have different names, those of one name are the same. -/
theorem Schema.coherent_of_nodup {context : Context} {alternatives : List Schema}
    (h : (alternatives.map context.typeName).Nodup) : Schema.Coherent context alternatives := by
  intro left hl right hr hn direction access depth
  rw [List.inj_on_of_nodup_map h hl hr hn]

namespace Schema

variable {document : Schema} {inventory : Inventory} {options : Options}

theorem setting_of_realizes {κ ν : Type} {world : World κ ν} {classOf : Record → κ}
    (h : document.WellFormed) (hs : ∀ node ∈ document.positions, node.Spelled)
    (ho : inventory.Of document.augmented)
    (hw : world.Realizes (document.context options inventory) inventory.records classOf) :
    world.Setting (document.context options inventory) inventory.records classOf where
  toRealizes := hw
  proper := proper_context h ho
  records_proper own hm := (ho.record_wellFormed (wellFormed_augmented h) own hm).proper
  spelled _ hm := wordedBy_record options h hs ho hm
  found _ _ hr := (of_resolve ho hr).2

theorem ready_of_declared (h : document.WellFormed) (ho : inventory.Of document.augmented)
    (hk : options.withClasses) {declarations : List (Json × Declaration)}
    (hd : inventory.declared (document.context options inventory) = .ok declarations)
    (hc : ∀ alternatives, document.augmented.Uses (union alternatives) →
      Coherent (document.context options inventory) alternatives)
    {own : Record} (hm : own ∈ inventory.records) {type : Schema} (ht : type ∈ own.fields.types) :
    Ready (document.context options inventory) inventory.records type where
  wellFormed := (wellFormed_record.1 (ho.record_wellFormed (wellFormed_augmented h) own hm)).2 type ht
  faultless e he := by
    have hf := (Inventory.failsBy_declared ho (wellFormed_augmented h)
      (@proper_context document inventory options h ho)).exists_ok_iff.1 ⟨declarations, hd⟩
    have hk : (document.context options inventory).options.withClasses = true := hk
    exact hf e ⟨own, hm, type, ht, hk ▸ he⟩
  leads node hn other hl := by
    have hp : node ∈ document.augmented.positions := positions_trans (ho.mem_records.1 hm)
      (positions_of_child ht (constituents_subset_positions type hn))
    exact ho.mem_records.2 (mem_defined.1 (mem_defined_of_leads ho hp hl))
  coherent alternatives ha := hc alternatives ⟨own, ho.mem_records.1 hm, type, ht, ha⟩

theorem exists_class (h : document.WellFormed) (hs : ∀ node ∈ document.positions, node.Spelled)
    (ho : inventory.Of document.augmented) (hk : options.withClasses)
    {declarations : List (Json × Declaration)}
    (hd : inventory.declared (document.context options inventory) = .ok declarations)
    {own : Record} (hm : own ∈ inventory.records) :
    ∃ declaration, ClassDeclaration.ofRecord (document.context options inventory) own =
        .ok declaration ∧
      (own.attributes.space, Declaration.classOf declaration) ∈ declarations ∧
      ClassDeclaration.read declaration.render = some declaration.untyped := by
  have hi := Inventory.mem_classes.2 ⟨hk, hm⟩
  obtain ⟨declared, hc⟩ := (Inventory.exists_of_declared hd).2.2 own hi
  obtain ⟨declaration, hdeclaration, rfl⟩ := Traversal.map_eq_ok_iff.1 hc
  exact ⟨declaration, hdeclaration, (Inventory.mem_declared hd).2 (.inr (.inr ⟨own, hi, hc, rfl⟩)),
    (ClassDeclaration.of_eq_ok hdeclaration).read_render (wordedBy_record options h hs ho hm)⟩

/-- Wherever classes are generated for a well-formed document, their texts stand in the bindings and
can be read, and so read, the one method of a class writes every conforming instance, and the other
restores from that an instance that agrees with it. The names in the document are identifiers, for
other ones spell no code, and class names stand for the classes they are generated for. As Avro asks,
the fields of a record have different names, and so have the alternatives of a union, unless those
of one name convert alike. -/
theorem round_trip (h : document.WellFormed) (hs : ∀ node ∈ document.positions, node.Spelled)
    (hk : options.withClasses) {text : String}
    (hg : (generate options document).result = .ok text) :
    ∃ augmented inventory units,
      (document.augment {}).2.result = .ok augmented ∧
      Inventory.ofSchema augmented = .ok inventory ∧
      text = Layout.paragraphs units ∧
      let context : Context := ⟨options, (document.augment {}).1, inventory.table⟩
      (∀ own ∈ inventory.records, ∃ declaration,
        ClassDeclaration.ofRecord context own = .ok declaration ∧
        Bundle.Places options units own.attributes.space declaration.render ∧
        ClassDeclaration.read declaration.render = some declaration.untyped) ∧
      ∀ (κ ν : Type) [DecidableEq κ] (world : World κ ν) (classOf : Record → κ),
        world.Realizes context inventory.records classOf →
        (∀ own ∈ inventory.records, (own.fieldList.map Field.label).Nodup) →
        (∀ alternatives, augmented.Uses (union alternatives) → Coherent context alternatives) →
        ∀ own ∈ inventory.records, ∀ value restored,
          world.Instance context classOf own value restored → Agrees value restored ∧
          ∃ wire, (∀ output, world.Returns (classOf own) .serialize value output ↔ output = wire) ∧
            ∀ output, world.Returns (classOf own) .deserialize wire output ↔ output = restored := by
  obtain ⟨hu, inventory, hi, ho, declarations, hd, hj⟩ := exists_of_generate h hg
  have hspace := isSpace_of_mem_rendered h ho hd
  obtain ⟨groups, hh, he, -⟩ := Bundle.exists_join options hspace
  rw [he] at hj
  cases hj
  refine ⟨_, inventory, _, augment_of_unambiguous h hu, hi, rfl, ?_⟩
  rw [augment_fst h]
  refine ⟨fun own hm => ?_, ?_⟩
  · obtain ⟨declaration, hdeclaration, hplace, hread⟩ := exists_class h hs ho hk hd hm
    exact ⟨declaration, hdeclaration,
      Bundle.places_units hh hspace (List.mem_map_of_mem hplace), hread⟩
  intro κ ν _ world classOf hw hn hc own hm value restored ⟨depth, hv⟩
  have hr : ∀ own ∈ inventory.records, ∀ type ∈ own.fields.types,
      Ready (document.context options inventory) inventory.records type :=
    fun own hm type ht => ready_of_declared h ho hk hd hc hm ht
  have hset := setting_of_realizes h hs ho hw
  obtain ⟨wire, -, hser, hdes⟩ :=
    (carried_of_instanceTo hset hr hn depth own hm value restored hv).wire
  have hwritten : world.Returns (classOf own) .serialize value wire := ⟨depth, hser⟩
  have hread : world.Returns (classOf own) .deserialize wire restored := ⟨depth, hdes⟩
  refine ⟨agrees_of_instanceTo depth own value restored hv, wire,
    fun output => ⟨fun ho => ho.unique hwritten, ?_⟩, fun output => ⟨fun ho => ho.unique hread, ?_⟩⟩
  · rintro rfl
    exact hwritten
  · rintro rfl
    exact hread

section Chain

def chainLabel : Schema := .union [.primitive .null none, .primitive .string none]

def chainRest : Schema :=
  .union [.primitive .null none, .reference "chain.Link", .primitive .long none]

/-- A chain of labels that ends in a number, as a record that refers to itself. -/
def chain : Record :=
  .mk [("type", .str "record"), ("name", .str "Link"), ("namespace", .str "chain")]
    (.listed [.mk [("name", .str "label")] (some chainLabel) [],
      .mk [("name", .str "rest")] (some chainRest) []]) []

theorem fieldList_chain : chain.fieldList =
    [.mk [("name", .str "label")] (some chainLabel) [],
      .mk [("name", .str "rest")] (some chainRest) []] := rfl

theorem wellFormed_chain : (record chain).WellFormed := by
  refine wellFormed_record.2 ⟨⟨⟨⟨"Link", rfl⟩, .inr ⟨"chain", rfl⟩⟩, ?_⟩, ?_⟩
  · simp only [chain, Record.fields_mk, Fields.Proper, List.forall_mem_cons]
    exact ⟨⟨⟨_, rfl⟩, ⟨_, rfl⟩⟩, ⟨⟨_, rfl⟩, ⟨_, rfl⟩⟩, by simp⟩
  · simp [chain, chainLabel, chainRest, Fields.types, Field.type?, wellFormed_union,
      wellFormed_primitive, wellFormed_reference]

theorem spelled_chain : ∀ node ∈ (record chain).positions, node.Spelled := by
  simp only [chain, chainLabel, chainRest, positions_eq, children_record, children_union,
    children_primitive, children_reference, Record.fields_mk, Fields.types, Field.type?,
    List.filterMap_cons, List.filterMap_nil, List.flatMap_cons, List.flatMap_nil,
    List.append_nil, List.cons_append, List.nil_append, List.forall_mem_cons]
  refine ⟨⟨⟨by decide, ?_⟩, by decide⟩, ?_⟩
  · rintro space h
    cases h
    exact .inr (by decide)
  · simp [Spelled]

theorem augmented_chain : (record chain).augmented = record chain := by
  with_unfolding_all rfl

theorem eq_chain {definition : Definition} (h : definition ∈ (record chain).augmented.defined) :
    definition = .record chain := by
  rw [augmented_chain, mem_defined] at h
  cases definition with
  | enum own =>
    simp [positions_eq, chain, chainLabel, chainRest, Fields.types, Field.type?,
      Definition.schema] at h
  | record own =>
    simpa [positions_eq, chain, chainLabel, chainRest, Fields.types, Field.type?,
      Definition.schema] using h

theorem find_chain : (record chain).registry.find "chain.Link" = .ok (some "chain.Link") := by
  with_unfolding_all rfl

variable (ho : inventory.Of (record chain).augmented)

include ho

theorem records_chain {own : Record} : own ∈ inventory.records ↔ own = chain := by
  rw [ho.mem_records]
  constructor
  · intro h
    cases eq_chain (mem_defined.2 h : Definition.record own ∈ _)
    rfl
  · rintro rfl
    rw [augmented_chain]
    exact self_mem_positions _

theorem resolve_chain :
    ((record chain).context options inventory).resolve (.str "chain.Link") =
      .ok (.record chain) := by
  obtain ⟨definition, hd, -, hr⟩ := @resolve_of_some _ _ options ho _ _ find_chain
  rw [eq_chain hd] at hr
  exact hr

theorem coherent_chain {alternatives : List Schema}
    (hu : (record chain).augmented.Uses (union alternatives)) :
    Coherent ((record chain).context options inventory) alternatives := by
  obtain ⟨own, hm, type, ht, hu⟩ := hu
  rw [(records_chain ho).1 (ho.mem_records.2 hm)] at ht
  apply coherent_of_nodup
  simp only [chain, Record.fields_mk, Fields.types, List.filterMap_cons, Field.type?,
    List.filterMap_nil, List.mem_cons, List.not_mem_nil, or_false] at ht
  obtain rfl | rfl := ht
  · obtain rfl : alternatives = [.primitive .null none, .primitive .string none] := by
      simpa [chainLabel, constituents_eq, operands] using hu
    simp [Context.typeName, Primitive.name]
  · obtain rfl : alternatives =
        [.primitive .null none, .reference "chain.Link", .primitive .long none] := by
      simpa [chainRest, constituents_eq, operands] using hu
    have hf : ((record chain).context options inventory).registry.find "chain.Link" =
        .ok (some "chain.Link") := find_chain
    simp [Context.typeName, hf, Except.map, Primitive.name]

omit ho

theorem instanceTo_chain {κ ν : Type} {world : World κ ν} {context : Context}
    {classOf : Record → κ} {depth : Nat} {label rest label' rest' : Value κ ν}
    (hl : world.FitsField context (world.InstanceTo context classOf depth) chainLabel label label')
    (hr : world.FitsField context (world.InstanceTo context classOf depth) chainRest rest rest') :
    world.InstanceTo context classOf (depth + 1) chain
      (.object (some (classOf chain)) [("label", label), ("rest", rest)])
      (.object (some (classOf chain)) [("label", label'), ("rest", rest')]) := by
  refine ⟨[("label", label), ("rest", rest)],
    fun field => if field.label = "label" then label' else rest', rfl, ?_, rfl, ?_⟩
  · intro property hm
    rw [List.mem_pair] at hm
    obtain rfl | rfl := hm
    · exact ⟨.mk [("name", .str "label")] (some chainLabel) [], by simp [fieldList_chain], rfl⟩
    · exact ⟨.mk [("name", .str "rest")] (some chainRest) [], by simp [fieldList_chain], rfl⟩
  · intro field hf
    rw [fieldList_chain, List.mem_pair] at hf
    obtain rfl | rfl := hf
    · exact ⟨chainLabel, rfl, hl⟩
    · exact ⟨chainRest, rfl, hr⟩

theorem instance_chain (ho : inventory.Of (record chain).augmented) {ν : Type}
    {world : World String ν} (classOf : Record → String) {number : ν}
    (hi : world.isInteger number) :
    world.Instance ((record chain).context options inventory) classOf chain
      (.object (some (classOf chain)) [("label", .null), ("rest",
        .object (some (classOf chain)) [("label", .string "end"), ("rest", .number number)])])
      (.object (some (classOf chain)) [("label", .undefined), ("rest",
        .object (some (classOf chain)) [("label", .string "end"), ("rest", .number number)])]) := by
  let context := (record chain).context options inventory
  have hinner : world.InstanceTo context classOf 1 chain
      (.object (some (classOf chain)) [("label", .string "end"), ("rest", .number number)])
      (.object (some (classOf chain)) [("label", .string "end"), ("rest", .number number)]) := by
    refine instanceTo_chain (.inr ⟨by simp [World.Misses], ?_⟩) (.inr ⟨by simp [World.Misses], ?_⟩)
    · exact .inr (.inl ⟨⟨"end", rfl⟩, rfl⟩)
    · exact .inr (.inr (.inl ⟨⟨number, rfl, hi⟩, rfl⟩))
  refine ⟨2, instanceTo_chain (.inl ⟨⟨rfl, .inr ⟨rfl, rfl⟩⟩, rfl⟩) (.inr ⟨by simp [World.Misses], ?_⟩)⟩
  exact .inr (.inl ⟨.record chain, resolve_chain ho, hinner⟩)

theorem round_trip_chain :
    ∃ (inventory : Inventory) (world : World String Nat) (wire : Value String Nat),
      Inventory.ofSchema (record chain).augmented = .ok inventory ∧
      world = .ofRecords ((record chain).context ⟨false, false, .enum, true⟩ inventory)
        inventory.records (fun _ => true) ∧
      world.Returns "chain.Link" .serialize
        (.object (some "chain.Link") [("label", .null), ("rest",
          .object (some "chain.Link") [("label", .string "end"), ("rest", .number 7)])]) wire ∧
      world.Returns "chain.Link" .deserialize wire
        (.object (some "chain.Link") [("label", .undefined), ("rest",
          .object (some "chain.Link") [("label", .string "end"), ("rest", .number 7)])]) := by
  have hs : (generate ⟨false, false, .enum, true⟩ (record chain)).result.isOk := by decide +kernel
  cases hg : (generate ⟨false, false, .enum, true⟩ (record chain)).result with
  | error e =>
    rw [hg] at hs
    cases hs
  | ok text =>
    obtain ⟨augmented, inventory, -, ha, hi, -, -, hr⟩ :=
      round_trip wellFormed_chain spelled_chain rfl hg
    obtain ⟨hu, other, hother, ho, declarations, hd, -⟩ := exists_of_generate wellFormed_chain hg
    rw [augment_of_unambiguous wellFormed_chain hu] at ha
    cases ha
    rw [hother] at hi
    cases hi
    rw [augment_fst wellFormed_chain] at hr
    let context := (record chain).context ⟨false, false, .enum, true⟩ inventory
    let world : World String Nat := .ofRecords context inventory.records fun _ => true
    let classOf (own : Record) : String :=
      (Definition.record own).className ⟨false, false, .enum, true⟩
    have hclass : classOf chain = "chain.Link" := by decide +kernel
    have hw : world.Realizes context inventory.records classOf := by
      refine World.realizes_ofRecords (fun own hm other hn _ => ?_) fun own hm => ?_
      · rw [(records_chain ho).1 hm, (records_chain ho).1 hn]
      · obtain ⟨declaration, hdeclaration, -, hread⟩ :=
          exists_class wellFormed_chain spelled_chain ho rfl hd hm
        exact ⟨declaration, hdeclaration, Option.isSome_of_eq_some hread⟩
    have hn : ∀ own ∈ inventory.records, (own.fieldList.map Field.label).Nodup := by
      intro own hm
      rw [(records_chain ho).1 hm]
      decide
    have hv := @instance_chain _ ⟨false, false, .enum, true⟩ ho Nat world classOf 7 rfl
    obtain ⟨-, wire, hser, hdes⟩ := hr String Nat world classOf hw hn
      (fun _ hu => coherent_chain ho hu) chain ((records_chain ho).2 rfl) _ _ hv
    rw [hclass] at hser hdes
    exact ⟨inventory, world, wire, hother, rfl, (hser wire).2 rfl, (hdes _).2 rfl⟩

end Chain

end Schema

end AvroBindings
