import AvroBindings.Proofs.Closed
import AvroBindings.Proofs.Code.Capture
import AvroBindings.Proofs.Schema.Words

/-! Variables that capture classes. Nothing keeps the variables of generated code apart from the
names of records and namespaces. A class is captured in the methods of a document exactly if its
name begins with a variable in whose scope a value of the class is converted, or if it is made in a
method and has the name of what the method is given. -/

namespace AvroBindings

theorem Declaration.methods_eq_nil {own : Declaration} (h : own.kind ≠ .classKind) :
    own.methods = [] := by
  cases own with
  | classOf declaration => exact absurd rfl h
  | _ => rfl

namespace Inventory

variable {inventory : Inventory} {schema : Schema} {context : Context}
  {declarations : List (Json × Declaration)}

theorem exists_record_of_methods (h : inventory.Of schema) (hw : schema.WellFormed)
    (hd : inventory.declared context = .ok declarations) {space : Json} {own : Declaration}
    (hm : (space, own) ∈ declarations) {method : Method} (ho : method ∈ own.methods) :
    ∃ record ∈ inventory.records, Declaration.classOfRecord context record = .ok own := by
  obtain ⟨enum, hi, he, -⟩ | ⟨record, hi, hr, -⟩ | ⟨record, hi, hc, -⟩ := (mem_declared hd).1 hm
  · have hk := (Declaration.ofEnum_eq_ok (h.enum_proper hw enum hi) he).1
    rw [Declaration.methods_eq_nil (by rw [hk]; nofun)] at ho
    cases ho
  · rw [Declaration.ofRecord_eq (h.record_wellFormed hw record hi).proper] at hr
    obtain ⟨properties, -, rfl⟩ := Traversal.map_eq_ok_iff.1 hr
    cases ho
  · exact ⟨record, (mem_classes.1 hi).2, hc⟩

/-- A class is captured in some method, exactly if a record of the document brings it about. -/
theorem captures_iff (h : inventory.Of schema) (hw : schema.WellFormed) (hs : schema.AllSettled)
    (hc : context.options.withClasses) (hd : inventory.declared context = .ok declarations) :
    (∃ space own, (space, own) ∈ declarations ∧
        ∃ method ∈ own.methods, ∃ occurrence ∈ method.occurrences, occurrence.Captures) ↔
      ∃ record ∈ inventory.records,
        record.attributes.shortName = "input" ∨ record.Hides context := by
  have hi : ∀ record ∈ inventory.records, ∀ own,
      Declaration.classOfRecord context record = .ok own →
      ((∃ method ∈ own.methods, ∃ occurrence ∈ method.occurrences, occurrence.Captures) ↔
        record.attributes.shortName = "input" ∨ record.Hides context) := by
    intro record hr own ho
    refine Declaration.captures_iff (h.record_wellFormed hw record hr).proper ?_ ho
    have hm : Definition.record record ∈ schema.defined :=
      Schema.mem_defined.2 (h.mem_records.1 hr)
    have ht : record.attributes.Settled := hs.of_mem_defined hm
    obtain ⟨name, hn, hu⟩ := ht.name
    cases hn.symm.trans ht.named.titled.name_eq
    exact hu
  constructor
  · rintro ⟨space, own, hm, method, ho, hp⟩
    obtain ⟨record, hr, hk⟩ := exists_record_of_methods h hw hd hm ho
    exact ⟨record, hr, (hi record hr own hk).1 ⟨method, ho, hp⟩⟩
  · rintro ⟨record, hr, hb⟩
    have hm := mem_classes.2 ⟨hc, hr⟩
    obtain ⟨own, ho⟩ := (exists_of_declared hd).2.2 record hm
    exact ⟨_, own, (mem_declared hd).2 (.inr (.inr ⟨record, hm, ho, rfl⟩)),
      (hi record hr own ho).2 hb⟩

end Inventory

/-- How the bindings of a document come about: its references are linked, its definitions are listed
and declared, and the declarations are joined. -/
structure Schema.Generation (document : Schema) (options : Options) (inventory : Inventory)
    (declarations : List (Json × Declaration)) (text : String) : Prop where
  listed : ∃ augmented, (document.augment {}).2.result = .ok augmented ∧
    Inventory.ofSchema augmented = .ok inventory
  declared : (inventory.declarations ⟨options, (document.augment {}).1, inventory.table⟩).result =
    .ok declarations
  joined : Bundle.join options (declarations.map fun (space, own) => (space, own.render)) = .ok text

namespace Schema

variable {document : Schema} {options : Options} {inventory : Inventory}
  {declarations : List (Json × Declaration)} {text : String}

theorem exists_generation (hg : (generate options document).result = .ok text) :
    ∃ inventory declarations, document.Generation options inventory declarations text := by
  unfold generate at hg
  simp only [Emitting.result_bind] at hg
  obtain ⟨augmented, ha, hg⟩ := Traversal.bind_eq_ok_iff.1 hg
  obtain ⟨inventory, hi, hg⟩ := Traversal.bind_eq_ok_iff.1 hg
  obtain ⟨-, -, hg⟩ := Traversal.bind_eq_ok_iff.1 hg
  obtain ⟨declarations, hd, hj⟩ := Traversal.bind_eq_ok_iff.1 hg
  exact ⟨inventory, declarations, ⟨augmented, ha, hi⟩, hd, hj⟩

theorem Generation.of (hg : document.Generation options inventory declarations text)
    (h : document.WellFormed) :
    inventory.Of document.augmented ∧
      inventory.declared ⟨options, (document.augment {}).1, inventory.table⟩ =
        .ok declarations := by
  obtain ⟨⟨augmented, ha, hi⟩, hd, -⟩ := hg
  obtain rfl := eq_augmented_of_augment h ha
  have hw := wellFormed_augmented h
  obtain ⟨other, hs, ho⟩ := Inventory.exists_ofSchema hw (allSettled_augmented h)
  cases hi.symm.trans hs
  exact ⟨ho, (Inventory.declarations_result ho hw _).symm.trans hd⟩

theorem Reached.mem_positions {type node : Schema} {levels : Nat} {around : List Construct}
    (h : type.Reached 0 levels around node) : node ∈ type.positions := by
  induction h with
  | top => exact self_mem_positions type
  | alternative h ha ih =>
    exact positions_trans ih (positions_of_child ha (self_mem_positions _))
  | items h ih =>
    exact positions_trans ih (positions_of_child (by simp) (self_mem_positions _))
  | values h ih =>
    exact positions_trans ih (positions_of_child (by simp) (self_mem_positions _))

theorem exists_of_hides (h : document.WellFormed) (ho : inventory.Of document.augmented)
    {record : Record} (hr : record ∈ inventory.records)
    (hh : record.Hides ⟨options, (document.augment {}).1, inventory.table⟩) :
    ∃ own, Definition.record own ∈ document.augmented.defined ∧
      (leftmost ((Definition.record own).className options) = "input" ∨
        ∃ (role : Role) (level : Nat),
          leftmost ((Definition.record own).className options) = numbered role.name level) := by
  obtain ⟨around, className, ⟨type, ht, levels, node, hn, own, hl, hc⟩, hs⟩ := hh
  have hp : node ∈ document.augmented.positions := positions_trans (ho.mem_records.1 hr)
    (positions_of_child ht hn.mem_positions)
  rw [augment_fst h] at hl
  have hd := mem_defined_of_leads ho hp hl
  have hq := (proper_of_mem_defined h hd).named.titled.qualifiedDeclarationName options
  have he : (Definition.record own).className options = className := by
    have hc : (Except.ok _ : Except Error Json).map Json.text = .ok className := hq ▸ hc
    exact Except.ok.inj hc
  refine ⟨own, hd, he ▸ ?_⟩
  obtain hs | hs := List.mem_cons.1 hs
  · exact .inl hs
  · obtain ⟨role, level, -, hv⟩ := hn.nested.exists_level hs
    exact .inr ⟨role, level, hv⟩

/-- In the methods that are generated for a well-formed document, the name of a class is captured by
a variable exactly if a record has the name of what the methods are given, or if the name of a class
begins so or with a variable in whose scope a value of the class is converted for a field. -/
theorem generate_captures_iff (h : document.WellFormed) (hc : options.withClasses)
    (hg : (generate options document).result = .ok text) :
    ∃ inventory declarations, document.Generation options inventory declarations text ∧
      (∀ space own, (space, own) ∈ declarations → ∀ method ∈ own.methods,
        condensed method.render = Occurrence.condensedAll method.occurrences) ∧
      ((∃ space own, (space, own) ∈ declarations ∧
          ∃ method ∈ own.methods, ∃ occurrence ∈ method.occurrences, occurrence.Captures) ↔
        ∃ record ∈ inventory.records, record.attributes.shortName = "input" ∨
          record.Hides ⟨options, (document.augment {}).1, inventory.table⟩) := by
  obtain ⟨inventory, declarations, hg⟩ := exists_generation hg
  obtain ⟨ho, hd⟩ := hg.of h
  exact ⟨inventory, declarations, hg, fun _ _ _ method _ => method.condensed_render,
    Inventory.captures_iff ho (wellFormed_augmented h) (allSettled_augmented h) hc hd⟩

theorem generate_captures_iff_sample :
    ∃ text inventory declarations,
      (generate ⟨false, false, .enum, true⟩ sample).result = .ok text ∧
      sample.Generation ⟨false, false, .enum, true⟩ inventory declarations text ∧
      ∀ space own, (space, own) ∈ declarations → ∀ method ∈ own.methods,
        condensed method.render = Occurrence.condensedAll method.occurrences ∧
          ∀ occurrence ∈ method.occurrences, ¬occurrence.Captures := by
  have hs : (generate ⟨false, false, .enum, true⟩ sample).result.isOk := by decide +kernel
  cases hg : (generate ⟨false, false, .enum, true⟩ sample).result with
  | error e =>
    rw [hg] at hs
    cases hs
  | ok text =>
    obtain ⟨inventory, declarations, hn, hr, hi⟩ := generate_captures_iff wellFormed_sample rfl hg
    refine ⟨text, inventory, declarations, rfl, hn, fun space own hm method ho =>
      ⟨hr space own hm method ho, fun occurrence hp hc => ?_⟩⟩
    have hd : sample.augmented.defined.all fun own => own.attributes.shortName != "input" &&
        leftmost (own.className ⟨false, false, .enum, true⟩) == "tree" := by decide +kernel
    have hd := fun own hm => Bool.and_eq_true_iff.1 (List.all_eq_true.1 hd own hm)
    obtain ⟨record, hm, hb⟩ := hi.1 ⟨space, own, hm, method, ho, occurrence, hp, hc⟩
    have hv := (hn.of wellFormed_sample).1
    obtain hb | hb := hb
    · have hx := (hd (.record record) (mem_defined.2 (hv.mem_records.1 hm))).1
      simp [Definition.attributes, hb] at hx
    · obtain ⟨own, ho, hb⟩ := exists_of_hides wellFormed_sample hv hm hb
      rw [eq_of_beq (hd _ ho).2] at hb
      obtain hb | ⟨role, level, hb⟩ := hb
      · exact absurd hb (by decide)
      · have hb := congrArg (fun text => text.toList.head?) hb
        cases role <;> simp [numbered, Role.name] at hb

def lettered : Schema :=
  .record (.mk [("type", .str "record"), ("name", .str "e")]
    (.listed [.mk [("name", .str "next")]
      (some (.array [("type", .str "array")] (some (.reference "e")) [])) []]) [])

theorem wellFormed_lettered : lettered.WellFormed := by
  refine wellFormed_record.2 ⟨⟨⟨⟨"e", rfl⟩, .inl rfl⟩, ?_⟩, ?_⟩
  · simp only [Record.fields_mk, Fields.Proper, List.forall_mem_singleton]
    exact ⟨⟨_, rfl⟩, ⟨_, rfl⟩⟩
  · simp only [Record.fields_mk, Fields.types, List.filterMap_cons, Field.type?,
      List.filterMap_nil, List.forall_mem_singleton]
    exact wellFormed_array.2 (wellFormed_reference "e")

theorem spelled_lettered : ∀ node ∈ lettered.positions, node.Spelled := by
  simp only [lettered, positions_eq, children_record, children_array, children_reference,
    Record.fields_mk, Fields.types, Field.type?, Option.toList, List.filterMap_cons,
    List.filterMap_nil, List.flatMap_cons, List.flatMap_nil, List.append_nil, List.forall_mem_cons]
  refine ⟨⟨⟨by decide, ?_⟩, by decide⟩, ?_⟩
  · rintro space h
    cases h
  · simp [Spelled]

theorem exists_hides_lettered (ho : inventory.Of lettered.augmented) :
    ∃ record ∈ inventory.records,
      record.Hides ⟨options, (lettered.augment {}).1, inventory.table⟩ := by
  have hm : "e" ∈ lettered.registry.names := by decide +kernel
  have hf := Registry.find_of_mem hm
  have he : lettered.registry.resolution "e" = "e" := by rw [Registry.resolution, hf]
  obtain ⟨definition, hm, -, hr⟩ := @resolve_of_some lettered inventory options ho _ _ hf
  have hr : Context.resolve ⟨options, (lettered.augment {}).1, inventory.table⟩
      (.str (lettered.registry.resolution "e")) = .ok definition := by
    rw [augment_fst wellFormed_lettered, he]
    exact hr
  -- The record is the only definition, so that it is what the reference leads to.
  have hl : lettered.augmented.defined.length = 1 := by decide +kernel
  obtain ⟨only, hl⟩ := List.length_eq_one_iff.1 hl
  have hk : ∀ own, lettered.augmented = .record own → definition = .record own := by
    intro own he
    have hs : Definition.record own ∈ lettered.augmented.defined :=
      mem_defined.2 (he ▸ self_mem_positions _)
    rw [hl] at hm hs
    exact (List.mem_singleton.1 hm).trans (List.mem_singleton.1 hs).symm
  cases hk _ rfl
  have hc : ∀ own : Record, own.attributes.name = .ok (.str "e") → own.attributes.space = .null →
      (own.attributes.qualifiedDeclarationName options).map Json.text = .ok "e" := by
    intro own hn hs
    rw [Attributes.qualifiedDeclarationName, hn]
    simp [Except.map, Attributes.referenceName, fullName, hs, Json.isTruthy]
  refine ⟨_, ho.mem_records.2 (mem_defined.1 hm), _, "e", ⟨_, List.mem_cons_self, _, _,
    .items .top, _, .reference _ _ hr, hc _ rfl rfl⟩, ?_⟩
  decide +kernel

/-- The elements of the list are converted by a function whose parameter has the name of their
class. -/
theorem generate_captures_lettered :
    lettered.WellFormed ∧ (∀ node ∈ lettered.positions, node.Spelled) ∧
      ∃ text inventory declarations,
        (generate ⟨false, false, .enum, true⟩ lettered).result = .ok text ∧
        lettered.Generation ⟨false, false, .enum, true⟩ inventory declarations text ∧
        ∃ space own, (space, own) ∈ declarations ∧ ∃ method ∈ own.methods,
          ∃ occurrence ∈ method.occurrences, occurrence.Captures := by
  have hs : (generate ⟨false, false, .enum, true⟩ lettered).result.isOk := by decide +kernel
  cases hg : (generate ⟨false, false, .enum, true⟩ lettered).result with
  | error e =>
    rw [hg] at hs
    cases hs
  | ok text =>
    obtain ⟨inventory, declarations, hn⟩ := exists_generation hg
    obtain ⟨ho, hd⟩ := hn.of wellFormed_lettered
    have hw := wellFormed_augmented wellFormed_lettered
    have hi := Inventory.captures_iff ho hw (allSettled_augmented wellFormed_lettered) rfl hd
    obtain ⟨record, hm, hh⟩ := exists_hides_lettered ho
    exact ⟨wellFormed_lettered, spelled_lettered, text, inventory, declarations, rfl, hn,
      hi.2 ⟨record, hm, .inr hh⟩⟩

end Schema

end AvroBindings
