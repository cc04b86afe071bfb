import AvroBindings.Proofs.Generated

/-! Which documents bindings can be generated for. A well-formed document fails at an ambiguous
reference anywhere, and else only below the fields of its records: at a reference to nothing, at a
node without a known shape, and for classes at a union that stands directly in another one. -/

namespace AvroBindings.Schema

/-- The node is met below the fields of a record, without entering those of another one. -/
def Uses (schema node : Schema) : Prop :=
  ∃ own, record own ∈ schema.positions ∧ ∃ type ∈ own.fields.types, node ∈ type.constituents

variable {document : Schema} {inventory : Inventory} {options : Options}

theorem types_augmented (own : Record) (space : Json) (resolve : String → String) :
    ((own.named space).linked resolve).fields.types =
      own.fields.types.map fun type =>
        (type.named ((record own).innerSpace space)).linked resolve := by
  have hn : (record (own.named space)).children = _ := children_named space (record own)
  have hl : (record ((own.named space).linked resolve)).children = _ :=
    children_linked (record (own.named space))
  rw [children_record, hn, List.map_map] at hl
  exact hl

theorem constituents_augmented (type : Schema) (space : Json) (resolve : String → String) :
    ((type.named space).linked resolve).constituents =
      type.constituents.map fun node => (node.named space).linked resolve := by
  rw [constituents_linked, constituents_named, List.map_map]
  rfl

theorem record_mem_augmented (h : document.WellFormed) {own : Record}
    (hm : record own ∈ document.augmented.positions) :
    ∃ origin space, record origin ∈ document.positions ∧
      own = (origin.named space).linked document.registry.resolution := by
  unfold augmented at hm
  rw [positions_linked, List.mem_map] at hm
  obtain ⟨renamed, hr, he⟩ := hm
  obtain ⟨origin, ho, space, -, rfl⟩ := mem_positions_named h .none hr
  cases origin with
  | record origin =>
    cases he
    exact ⟨origin, space, ho, rfl⟩
  | array before items after => cases items <;> cases he
  | map before values after => cases values <;> cases he
  | union alternatives => cases he
  | enum definition => cases he
  | primitive name wrapper => cases he
  | reference name => cases he
  | unknown value => cases he

theorem augmented_record_mem (h : document.WellFormed) {origin : Record}
    (hm : record origin ∈ document.positions) :
    ∃ space, record ((origin.named space).linked document.registry.resolution) ∈
      document.augmented.positions := by
  obtain ⟨space, -, hr⟩ := named_mem_positions h .none hm
  unfold augmented
  rw [positions_linked]
  exact ⟨space, List.mem_map_of_mem hr⟩

theorem of_uses_augmented (h : document.WellFormed) {node : Schema}
    (hu : document.augmented.Uses node) :
    ∃ origin space, document.Uses origin ∧
      node = (origin.named space).linked document.registry.resolution := by
  obtain ⟨own, hm, type, ht, hn⟩ := hu
  obtain ⟨origin, space, ho, rfl⟩ := record_mem_augmented h hm
  rw [types_augmented] at ht
  obtain ⟨own, hs, rfl⟩ := List.mem_map.1 ht
  rw [constituents_augmented] at hn
  obtain ⟨node, hc, rfl⟩ := List.mem_map.1 hn
  exact ⟨node, _, ⟨origin, ho, own, hs, hc⟩, rfl⟩

theorem augmented_uses (h : document.WellFormed) {origin : Schema} (hu : document.Uses origin) :
    ∃ space, document.augmented.Uses
      ((origin.named space).linked document.registry.resolution) := by
  obtain ⟨own, hm, type, ht, hn⟩ := hu
  obtain ⟨space, hr⟩ := augmented_record_mem h hm
  have hs : (type.named ((record own).innerSpace space)).linked document.registry.resolution ∈
      ((own.named space).linked document.registry.resolution).fields.types := by
    rw [types_augmented]
    exact List.mem_map_of_mem ht
  refine ⟨(record own).innerSpace space, _, hr, _, hs, ?_⟩
  rw [constituents_augmented]
  exact List.mem_map_of_mem hn

theorem reference_mem_of_uses {name : String} (hu : document.Uses (reference name)) :
    reference name ∈ document.positions := by
  obtain ⟨own, hm, type, ht, hn⟩ := hu
  have hc := constituents_subset_positions type hn
  exact positions_trans hm (positions_of_child ht hc)

theorem resolve_of_knows (ho : inventory.Of document.augmented) {name : String}
    (ha : ¬document.registry.IsAmbiguous name) (hk : document.registry.Knows name) :
    ∃ definition ∈ document.augmented.defined,
      (document.context options inventory).resolve (.str (document.registry.resolution name)) =
        .ok definition := by
  obtain ⟨-, -, full, hf⟩ | ⟨-, hn, -⟩ | ⟨h, -⟩ :=
    Registry.find_cases (others_registry document) (nodup_registry document) name
  · have hr : document.registry.resolution name = full := by
      unfold Registry.resolution
      rw [hf]
    have hs := Registry.find_of_mem (Registry.mem_of_find hf)
    obtain ⟨definition, hd, -, he⟩ := resolve_of_some ho hs
    exact ⟨definition, hd, hr ▸ he⟩
  · exact absurd hk hn
  · exact absurd h ha

theorem resolve_of_not_knows {name : String} (ha : ¬document.registry.IsAmbiguous name)
    (hk : ¬document.registry.Knows name) :
    (document.context options inventory).resolve (.str (document.registry.resolution name)) =
      .error (.unresolvedReference (.str name)) := by
  obtain ⟨-, h, -⟩ | ⟨-, -, hf⟩ | ⟨h, -⟩ :=
    Registry.find_cases (others_registry document) (nodup_registry document) name
  · exact absurd h hk
  · have hr : document.registry.resolution name = name := by
      unfold Registry.resolution
      rw [hf]
    rw [hr]
    exact resolve_of_none hf
  · exact absurd h ha

/-- What a node of a document without ambiguous references goes wrong by. -/
def Defect (document : Schema) (classes : Bool) (e : Error) : Prop :=
  (∃ name, document.Uses (reference name) ∧ ¬document.registry.Knows name ∧
    e = .unresolvedReference (.str name)) ∨
  (∃ value, document.Uses (unknown value) ∧ e = .unknownType value) ∨
  (classes ∧ ∃ alternatives value, document.Uses (union alternatives) ∧
    2 ≤ alternatives.length ∧ (∃ alternative ∈ alternatives, alternative.isUnion) ∧
    e = .unknownType value)

theorem exists_faults_iff (ho : inventory.Of document.augmented) {context : Context}
    {classes : Bool} {e : Error} :
    (∃ own ∈ inventory.records, own.Faults context classes e) ↔
      ∃ node, document.augmented.Uses node ∧ node.Faulty context classes e := by
  constructor
  · rintro ⟨own, hm, type, ht, node, hn, hf⟩
    exact ⟨node, ⟨own, ho.mem_records.1 hm, type, ht, hn⟩, hf⟩
  · rintro ⟨node, ⟨own, hm, type, ht, hn⟩, hf⟩
    exact ⟨own, ho.mem_records.2 hm, type, ht, node, hn, hf⟩

theorem isUnion_augmented (schema : Schema) (space : Json) (resolve : String → String) :
    ((schema.named space).linked resolve).isUnion = schema.isUnion := by
  rw [isUnion_linked, isUnion_named]

theorem union_augmented (alternatives : List Schema) (space : Json)
    (resolve : String → String) :
    ((union alternatives).named space).linked resolve =
      union (alternatives.map fun alternative => (alternative.named space).linked resolve) := by
  rw [named, linked, namedAll_eq, linkedAll_eq, List.map_map]
  rfl

theorem defect_of_faulty (h : document.WellFormed) (hu : document.Unambiguous)
    (ho : inventory.Of document.augmented) {classes : Bool} {node : Schema} {e : Error}
    (hn : document.augmented.Uses node)
    (hf : node.Faulty (document.context options inventory) classes e) :
    document.Defect classes e := by
  obtain ⟨origin, space, hm, rfl⟩ := of_uses_augmented h hn
  cases origin with
  | unknown value => exact .inr (.inl ⟨value, hm, hf⟩)
  | reference name =>
    have ha := hu name (mem_references.2 (reference_mem_of_uses hm))
    have hr : (document.context options inventory).resolve
        (.str (document.registry.resolution name)) = .error e := hf
    by_cases hk : document.registry.Knows name
    · obtain ⟨definition, -, hd⟩ := resolve_of_knows ho ha hk
      rw [hd] at hr
      cases hr
    · rw [resolve_of_not_knows ha hk] at hr
      cases hr
      exact .inl ⟨name, hm, hk, rfl⟩
  | union alternatives =>
    rw [union_augmented] at hf
    obtain ⟨hc, hl, alternative, ha, hi, rfl⟩ := hf
    obtain ⟨own, hw, rfl⟩ := List.mem_map.1 ha
    rw [isUnion_augmented] at hi
    rw [List.length_map] at hl
    have hp := List.length_pos_of_mem hw
    exact .inr (.inr ⟨hc, alternatives, _, hm, by omega, ⟨own, hw, hi⟩, rfl⟩)
  | array before items after => cases items <;> cases hf
  | map before values after => cases values <;> cases hf
  | record own => cases hf
  | enum own => cases hf
  | primitive name wrapper => cases hf

theorem exists_faulty_of_defect (h : document.WellFormed) (hu : document.Unambiguous)
    {classes : Bool} {e : Error} (hd : document.Defect classes e) :
    ∃ node e, document.augmented.Uses node ∧
      node.Faulty (document.context options inventory) classes e := by
  obtain ⟨name, hm, hk, -⟩ | ⟨value, hm, -⟩ | ⟨hc, alternatives, -, hm, hl, ⟨own, ha, hi⟩, -⟩ := hd
  · obtain ⟨space, hs⟩ := augmented_uses h hm
    have ha := hu name (mem_references.2 (reference_mem_of_uses hm))
    exact ⟨_, _, hs, resolve_of_not_knows ha hk⟩
  · obtain ⟨space, hs⟩ := augmented_uses h hm
    exact ⟨_, .unknownType value, hs, rfl⟩
  · obtain ⟨space, hs⟩ := augmented_uses h hm
    rw [union_augmented] at hs
    refine ⟨_, _, hs, hc, ?_, _, List.mem_map_of_mem ha, ?_, rfl⟩
    · rw [List.length_map]
      omega
    · rw [isUnion_augmented]
      exact hi

theorem generate_of_defect (h : document.WellFormed) (hu : document.Unambiguous)
    (options : Options) :
    ((∃ text, (generate options document).result = .ok text) ↔
      ∀ e, ¬document.Defect options.withClasses e) ∧
    ∀ e, (generate options document).result = .error e →
      document.Defect options.withClasses e := by
  obtain ⟨inventory, -, ho, hg⟩ := generate_of_unambiguous h hu options
  have hf := (Inventory.failsBy_declared ho (wellFormed_augmented h)
    (@proper_context document inventory options h ho)).bind_ok
      fun declarations hd => exists_join h ho hd options
  have hf := hf.congr fun e => exists_faults_iff ho
  rw [← hg] at hf
  refine ⟨?_, ?_⟩
  · rw [hf.exists_ok_iff]
    constructor
    · intro hn e hd
      obtain ⟨node, e, hm, he⟩ := exists_faulty_of_defect h hu hd
      exact hn e ⟨node, hm, he⟩
    · rintro hn e ⟨node, hm, he⟩
      exact hn e (defect_of_faulty h hu ho hm he)
  · intro e he
    obtain ⟨node, hm, hn⟩ := hf.of_error he
    exact defect_of_faulty h hu ho hm hn

/-- Bindings of a well-formed document are generated exactly if no reference is ambiguous, every
node below the fields of a record has a known shape and every reference there is to a name that the
document defines, and, where classes are asked for, no union stands directly in another one. An
ambiguous reference is reported first, then what stands in the way below the fields. -/
theorem generate_outcome (h : document.WellFormed) (options : Options) :
    ((∃ text, (generate options document).result = .ok text) ↔
      (∀ name, reference name ∈ document.positions →
        ¬(document.augment {}).1.IsAmbiguous name) ∧
      (∀ node, document.Uses node → (∀ value, node ≠ unknown value) ∧
        ∀ name, node = reference name → (document.augment {}).1.Knows name) ∧
      (options.withClasses → ∀ alternatives, document.Uses (union alternatives) →
        2 ≤ alternatives.length → ∀ alternative ∈ alternatives, ¬alternative.isUnion)) ∧
    ∀ e, (generate options document).result = .error e →
      (∃ name, reference name ∈ document.positions ∧ (document.augment {}).1.IsAmbiguous name ∧
        e = .ambiguousReference name
          (Registry.sorted ((document.augment {}).1.candidates name))) ∨
      ((∀ name, reference name ∈ document.positions →
          ¬(document.augment {}).1.IsAmbiguous name) ∧
        ((∃ name, document.Uses (reference name) ∧ ¬(document.augment {}).1.Knows name ∧
          e = .unresolvedReference (.str name)) ∨
        (∃ value, document.Uses (unknown value) ∧ e = .unknownType value) ∨
        (options.withClasses ∧ ∃ alternatives value, document.Uses (union alternatives) ∧
          2 ≤ alternatives.length ∧ (∃ alternative ∈ alternatives, alternative.isUnion) ∧
          e = .unknownType value))) := by
  have hp : document.Unambiguous ↔ ∀ name, reference name ∈ document.positions →
      ¬document.registry.IsAmbiguous name := by
    unfold Unambiguous
    simp only [mem_references]
  rw [augment_fst h, ← hp]
  by_cases hu : document.Unambiguous
  · obtain ⟨ho, he⟩ := generate_of_defect h hu options
    refine ⟨?_, fun e hr => .inr ⟨hu, he e hr⟩⟩
    rw [ho]
    constructor
    · intro hn
      refine ⟨hu, fun node hm => ⟨?_, ?_⟩, ?_⟩
      · rintro value rfl
        exact hn _ (.inr (.inl ⟨value, hm, rfl⟩))
      · rintro name rfl
        by_contra hk
        exact hn _ (.inl ⟨name, hm, hk, rfl⟩)
      · intro hc alternatives hm hl alternative ha hi
        exact hn (.unknownType .null)
          (.inr (.inr ⟨hc, alternatives, .null, hm, hl, ⟨alternative, ha, hi⟩, rfl⟩))
    · rintro ⟨-, hk, hc⟩ e
        (⟨name, hm, hn, -⟩ | ⟨value, hm, -⟩ | ⟨hw, alternatives, -, hm, hl, ⟨own, ha, hi⟩, -⟩)
      · exact hn ((hk _ hm).2 name rfl)
      · exact (hk _ hm).1 value rfl
      · exact hc hw alternatives hm hl own ha hi
  · obtain ⟨name, hm, ha, he⟩ := @generate_of_ambiguous document options h hu
    rw [he]
    refine ⟨⟨?_, fun hr => absurd hr.1 hu⟩, ?_⟩
    · rintro ⟨text, ht⟩
      cases ht
    · rintro e hr
      cases hr
      exact .inl ⟨name, mem_references.1 hm, ha, rfl⟩

theorem generate_outcome_sample :
    (∃ text, (generate ⟨false, false, .enum, true⟩ sample).result = .ok text) ∧
      ∀ name, sample.Uses (reference name) → (sample.augment {}).1.Knows name := by
  have hs : (generate ⟨false, false, .enum, true⟩ sample).result.isOk := by decide +kernel
  cases hg : (generate ⟨false, false, .enum, true⟩ sample).result with
  | error e =>
    rw [hg] at hs
    cases hs
  | ok text =>
    have ho := (generate_outcome wellFormed_sample ⟨false, false, .enum, true⟩).1.1 ⟨text, hg⟩
    exact ⟨⟨text, rfl⟩, fun name hm => (ho.2.1 _ hm).2 name rfl⟩

end AvroBindings.Schema
