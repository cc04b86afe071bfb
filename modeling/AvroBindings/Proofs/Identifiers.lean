import AvroBindings.Proofs.Closed
import Mathlib.Data.List.Nodup
import Mathlib.Data.List.Pairwise

/-! What the bindings of a document declare side by side. A definition declares its own name, and a
record with a class its interface beside it, under the name with an `I` before it. Where full names
differ, only such an interface can meet another identifier of its namespace. -/

namespace AvroBindings

/-- An identifier that is declared in the block of a namespace. -/
structure Identifier where
  space : Json
  kind : Declaration.Kind
  text : String

def Enum.identifier (own : Enum) : Identifier :=
  ⟨own.attributes.space, .enum, own.attributes.shortName⟩

def Record.interfaceIdentifier (options : Options) (own : Record) : Identifier :=
  ⟨own.attributes.space, .interface, options.interfaceText own.attributes.shortName⟩

def Record.classIdentifier (own : Record) : Identifier :=
  ⟨own.attributes.space, .classKind, own.attributes.shortName⟩

def Definition.identifiers (options : Options) : Definition → List Identifier
  | enum own => [own.identifier]
  | record own =>
    own.interfaceIdentifier options :: if options.withClasses then [own.classIdentifier] else []

/-- What keeps identifiers apart: the namespace and the text. -/
def Identifier.key (identifier : Identifier) : Json × String := (identifier.space, identifier.text)

namespace Definition

variable {options : Options} {definition other : Definition}

/-- The record is declared under its name with an `I` before it. -/
def Prefixes (options : Options) (definition : Definition) : Prop :=
  options.withClasses ∧ ∃ own, definition = record own

theorem mem_keys {space : Json} {text : String} :
    (space, text) ∈ (definition.identifiers options).map Identifier.key ↔
      space = definition.attributes.space ∧ (text = definition.attributes.shortName ∨
        definition.Prefixes options ∧ text = "I" ++ definition.attributes.shortName) := by
  unfold identifiers Prefixes Identifier.key attributes
  cases definition with
  | enum own => simp [Enum.identifier]
  | record own =>
    unfold Record.interfaceIdentifier Record.classIdentifier Options.interfaceText
    cases hc : options.withClasses with
    | false => simp
    | true =>
      simp
      tauto

theorem nodup_keys : ((definition.identifiers options).map Identifier.key).Nodup := by
  unfold identifiers Identifier.key
  cases definition with
  | enum own => simp
  | record own =>
    unfold Record.interfaceIdentifier Record.classIdentifier Options.interfaceText
    cases hc : options.withClasses with
    | false => simp
    | true => simp

/-- The interface of a record has the name of a definition in the same namespace. -/
def Meets (options : Options) (definition other : Definition) : Prop :=
  definition.Prefixes options ∧ other.attributes.space = definition.attributes.space ∧
    other.attributes.shortName = "I" ++ definition.attributes.shortName

theorem qualifiedText_congr (h : definition.attributes.Named) (ho : other.attributes.Named)
    (hs : definition.attributes.space = other.attributes.space)
    (hn : definition.attributes.shortName = other.attributes.shortName) :
    definition.attributes.qualifiedText = other.attributes.qualifiedText := by
  unfold Attributes.qualifiedText Attributes.qualifiedName
  rw [h.titled.name_eq, ho.titled.name_eq, hs, hn]

/-- Definitions of different full names share an identifier only where the interface of the one has
the name of the other. -/
theorem disjoint_keys_iff (h : definition.attributes.Named) (ho : other.attributes.Named)
    (hq : definition.attributes.qualifiedText ≠ other.attributes.qualifiedText) :
    ((definition.identifiers options).map Identifier.key).Disjoint
        ((other.identifiers options).map Identifier.key) ↔
      ¬definition.Meets options other ∧ ¬other.Meets options definition := by
  constructor
  · intro hd
    refine ⟨fun ⟨hp, hs, hn⟩ => ?_, fun ⟨hp, hs, hn⟩ => ?_⟩
    · exact hd (mem_keys.2 ⟨hs, .inr ⟨hp, hn⟩⟩) (mem_keys.2 ⟨rfl, .inl rfl⟩)
    · exact hd (mem_keys.2 ⟨rfl, .inl rfl⟩) (mem_keys.2 ⟨hs, .inr ⟨hp, hn⟩⟩)
  · rintro ⟨hl, hr⟩ ⟨space, text⟩ hm hm'
    obtain ⟨rfl, ht⟩ := mem_keys.1 hm
    obtain ⟨hs, ht'⟩ := mem_keys.1 hm'
    have hne : definition.attributes.shortName ≠ other.attributes.shortName :=
      fun hn => hq (qualifiedText_congr h ho hs hn)
    obtain rfl | ⟨hp, rfl⟩ := ht
    · obtain hn | ⟨hp, hn⟩ := ht'
      · exact hne hn
      · exact hr ⟨hp, hs, hn⟩
    · obtain hn | ⟨hp', hn⟩ := ht'
      · exact hl ⟨hp, hs.symm, hn.symm⟩
      · exact hne ((String.append_right_inj _).1 hn)

end Definition

theorem Definition.not_meets_self (options : Options) (definition : Definition) :
    ¬definition.Meets options definition :=
  fun ⟨_, _, hn⟩ => absurd hn.symm (by simp)

def Definition.Avoids (options : Options) (definition other : Definition) : Prop :=
  ¬definition.Meets options other ∧ ¬other.Meets options definition

instance (options : Options) : Std.Symm (Definition.Avoids options) where
  symm _ _ h := h.symm

theorem nodup_identifiers_iff (options : Options) {definitions : List Definition}
    (h : ∀ definition ∈ definitions, definition.attributes.Named)
    (hq : (definitions.map (·.attributes.qualifiedText)).Nodup) :
    ((definitions.flatMap (Definition.identifiers options)).map Identifier.key).Nodup ↔
      ∀ definition ∈ definitions, ∀ other ∈ definitions, ¬definition.Meets options other := by
  have hp := List.pairwise_map.1 hq
  rw [List.map_flatMap, List.nodup_flatMap,
    and_iff_right fun definition _ => definition.nodup_keys]
  constructor
  · intro hd definition hm other ho
    have ha : definitions.Pairwise (Definition.Avoids options) :=
      (hp.and hd).imp_of_mem fun hm ho hr =>
        (Definition.disjoint_keys_iff (h _ hm) (h _ ho) hr.1).1 hr.2
    have hs (own : Definition) : own.Avoids options own :=
      ⟨own.not_meets_self options, own.not_meets_self options⟩
    exact (ha.forall_of_forall (fun own _ => hs own) hm ho).1
  · intro hn
    refine hp.imp_of_mem fun hm ho hne => ?_
    exact (Definition.disjoint_keys_iff (h _ hm) (h _ ho) hne).2 ⟨hn _ hm _ ho, hn _ ho _ hm⟩

def Declaration.identifier (entry : Json × Declaration) : Identifier :=
  ⟨entry.1, entry.2.kind, entry.2.name⟩

namespace Inventory

variable {inventory : Inventory} {schema : Schema} {context : Context}
  {declarations : List (Json × Declaration)}

theorem map_identifier_of_mapM {α : Type} {items : List α} {space : α → Json}
    {declaration : α → Except Error Declaration} {identifier : α → Identifier}
    (hd : items.mapM (fun own => (declaration own).map (Prod.mk (space own))) = .ok declarations)
    (h : ∀ item ∈ items, ∀ own, declaration item = .ok own →
      Declaration.identifier (space item, own) = identifier item) :
    declarations.map Declaration.identifier = items.map identifier := by
  refine Traversal.map_eq_of_forall₂ (Traversal.forall₂_of_mapM hd fun item hm entry he => ?_)
  obtain ⟨own, ho, rfl⟩ := Traversal.map_eq_ok_iff.1 he
  exact h item hm own ho

theorem map_identifier_declared (h : inventory.Of schema) (hw : schema.WellFormed)
    (hd : inventory.declared context = .ok declarations) :
    declarations.map Declaration.identifier =
      inventory.enums.map Enum.identifier ++
        inventory.records.map (Record.interfaceIdentifier context.options) ++
        (inventory.classes context.options).map Record.classIdentifier := by
  obtain ⟨enums, he, hd⟩ := Traversal.bind_eq_ok_iff.1 hd
  obtain ⟨interfaces, hi, hd⟩ := Traversal.bind_eq_ok_iff.1 hd
  obtain ⟨classes, hc, hd⟩ := Traversal.bind_eq_ok_iff.1 hd
  cases hd
  rw [List.map_append, List.map_append]
  congr 1
  · congr 1
    · refine map_identifier_of_mapM he fun own hm declaration ho => ?_
      obtain ⟨hk, hn, -⟩ := Declaration.ofEnum_eq_ok (h.enum_proper hw own hm) ho
      rw [Declaration.identifier, hk, hn]
      rfl
    · refine map_identifier_of_mapM hi fun own hm declaration ho => ?_
      rw [Declaration.ofRecord_eq (h.record_wellFormed hw own hm).proper] at ho
      obtain ⟨properties, -, rfl⟩ := Traversal.map_eq_ok_iff.1 ho
      rfl
  · refine map_identifier_of_mapM hc fun own hm declaration ho => ?_
    have hp := (h.record_wellFormed hw own (mem_classes.1 hm).2).proper
    obtain ⟨declaration, hk, rfl⟩ := Traversal.map_eq_ok_iff.1 ho
    obtain ⟨properties, reads, writes, -, -, -, rfl⟩ := ClassDeclaration.of_ofRecord hp hk
    rfl

theorem perm_identifiers (options : Options) (definitions : List Definition) :
    ((definitions.filterMap Definition.enum?).map Enum.identifier ++
      (definitions.filterMap Definition.record?).map (Record.interfaceIdentifier options) ++
      (if options.withClasses then definitions.filterMap Definition.record? else []).map
        Record.classIdentifier).Perm (definitions.flatMap (Definition.identifiers options)) := by
  induction definitions with
  | nil => simp
  | cons definition rest ih =>
    rw [List.flatMap_cons]
    cases definition with
    | enum own => exact ih.cons own.identifier
    | record own =>
      simp only [List.filterMap_cons, Definition.enum?, Definition.record?, List.map_cons,
        Definition.identifiers]
      cases hc : options.withClasses with
      | false =>
        simp only [hc, Bool.false_eq_true, if_false, List.map_nil, List.append_nil] at ih ⊢
        exact List.perm_middle.trans (ih.cons _)
      | true =>
        simp only [hc, if_true, List.map_cons] at ih ⊢
        have hi := (List.perm_middle.append_right _).trans (ih.cons (own.interfaceIdentifier options))
        exact List.perm_middle.trans ((hi.cons _).trans (.swap ..))

end Inventory

/-- The texts of a group declare the identifiers of its namespace, in their order. -/
theorem Bundle.declares_of_group {declarations : List (Json × Declaration)}
    (hs : ∀ item ∈ declarations.map fun (space, own) => (space, own.render), item.1.IsSpace)
    {groups : List (Json × List String)}
    (hg : group (declarations.map fun (space, own) => (space, own.render)) = .ok groups)
    {space : Json} {texts : List String} (hm : (space, texts) ∈ groups) :
    List.Forall₂ (fun identifier text => Declares identifier.kind identifier.text text)
      ((declarations.map Declaration.identifier).filter (·.space.same space)) texts := by
  have ht := eq_of_mem_group hs hg hm
  rw [List.filter_map, List.map_map] at ht
  rw [ht, List.filter_map, List.forall₂_map_left_iff, List.forall₂_map_right_iff]
  exact List.forall₂_same.2 fun entry _ => entry.2.declares_render

namespace Schema

variable {document : Schema}

theorem identifiers_linked (options : Options) (resolve : String → String)
    (definition : Definition) :
    (definition.linked resolve).identifiers options = definition.identifiers options := by
  cases definition with
  | enum own => rfl
  | record own =>
    simp only [Definition.linked, Definition.identifiers, Record.interfaceIdentifier,
      Record.classIdentifier, Record.attributes_linked]

/-- What the bindings declare is the identifiers of the definitions. -/
theorem perm_identifiers_declared (h : document.WellFormed) {inventory : Inventory}
    (ho : inventory.Of document.augmented) {options : Options}
    {declarations : List (Json × Declaration)}
    (hd : inventory.declared (document.context options inventory) = .ok declarations) :
    (declarations.map Declaration.identifier).Perm
      ((document.named .null).defined.flatMap (Definition.identifiers options)) := by
  have hl : document.augmented.defined.flatMap (Definition.identifiers options) =
      (document.named .null).defined.flatMap (Definition.identifiers options) := by
    rw [augmented, defined_linked, List.flatMap_map]
    exact congrArg (List.flatMap · _) (funext (identifiers_linked options _))
  rw [Inventory.map_identifier_declared ho (wellFormed_augmented h) hd]
  refine .trans ?_ (hl ▸ Inventory.perm_identifiers options document.augmented.defined)
  refine ((ho.enums.map _).append (ho.records.map _)).append (.map _ ?_)
  change (inventory.classes options).Perm _
  unfold Inventory.classes
  split
  · exact ho.records
  · exact .refl _

/-- In a well-formed document whose definitions have different full names, the identifiers that are
declared in one namespace are different but where classes are asked for and a definition has the
name of a record of its namespace with an `I` before it. What the bindings declare is these
identifiers, each once, and the texts in the block of a namespace, or at top level where there is
none, declare those of the namespace. -/
theorem declared_identifiers (h : document.WellFormed) (hn : (document.assign .null).emitted.Nodup)
    (options : Options) :
    ∃ named definitions, (document.assign .null).result = .ok named ∧
      named.definitions = .ok definitions ∧
      (((definitions.flatMap (Definition.identifiers options)).map Identifier.key).Nodup ↔
        (options.withClasses → ∀ own, .record own ∈ definitions → ∀ other ∈ definitions,
          other.attributes.space = own.attributes.space →
            other.attributes.shortName ≠ "I" ++ own.attributes.shortName)) ∧
      ∀ augmented inventory declarations, (document.augment {}).2.result = .ok augmented →
        Inventory.ofSchema augmented = .ok inventory →
        (inventory.declarations ⟨options, (document.augment {}).1, inventory.table⟩).result =
          .ok declarations →
        (declarations.map Declaration.identifier).Perm
          (definitions.flatMap (Definition.identifiers options)) ∧
        ∃ groups,
          Bundle.group (declarations.map fun (space, own) => (space, own.render)) = .ok groups ∧
          (generate options document).result = .ok (Layout.paragraphs (Bundle.units options
            (declarations.map fun (space, own) => (space, own.render)) groups)) ∧
          ∀ space texts, (space, texts) ∈ groups → ∃ identifiers,
            identifiers.Perm ((definitions.flatMap (Definition.identifiers options)).filter
              (·.space.same space)) ∧
            List.Forall₂ (fun identifier text => Declares identifier.kind identifier.text text)
              identifiers texts := by
  have hw := wellFormed_named h .none
  have hs := allSettled_named h .none
  rw [assign_eq h .none] at hn ⊢
  refine ⟨_, _, rfl, definitions_eq hw, ?_, ?_⟩
  · rw [nodup_identifiers_iff options (fun own hm => (hs.of_mem_defined hm).named) hn]
    constructor
    · exact fun hm hc own ho other ho' hs he => hm _ ho other ho' ⟨⟨hc, own, rfl⟩, hs, he⟩
    · rintro hm definition hd other ho ⟨⟨hc, own, rfl⟩, hs, he⟩
      exact hm hc own hd other ho hs he
  · intro augmented inventory declarations ha hi hd
    have hu := unambiguous_of_augment h ha
    rw [augment_of_unambiguous h hu] at ha
    cases ha
    obtain ⟨_, he, ho, hg⟩ := generate_of_unambiguous h hu options
    cases hi.symm.trans he
    rw [Inventory.declarations_result ho (wellFormed_augmented h), augment_fst h] at hd
    change inventory.declared (document.context options inventory) = _ at hd
    have hp := perm_identifiers_declared h ho hd
    have hs := isSpace_of_mem_rendered h ho hd
    obtain ⟨groups, -, hj, hr⟩ := Bundle.exists_join options hs
    rw [hd] at hg
    refine ⟨hp, groups, hr, hg.trans hj, fun space texts hm => ⟨_, hp.filter _, ?_⟩⟩
    exact Bundle.declares_of_group hs hr hm

def beside (space : String) : Schema :=
  .union [.record (.mk [("type", .str "record"), ("name", .str "Point"), ("namespace", .str "geo")]
      .absent []),
    .enum ⟨[("type", .str "enum"), ("name", .str "IPoint"), ("namespace", .str space)]⟩]

theorem wellFormed_beside (space : String) : (beside space).WellFormed := by
  refine wellFormed_union.2 fun alternative hm => ?_
  obtain rfl | hm := List.mem_cons.1 hm
  · exact wellFormed_record.2 ⟨⟨⟨⟨_, rfl⟩, .inr ⟨_, rfl⟩⟩, trivial⟩, by simp [Fields.types]⟩
  · rw [List.mem_singleton.1 hm]
    exact wellFormed_enum.2 ⟨⟨⟨_, rfl⟩, .inr ⟨_, rfl⟩⟩, .inl rfl⟩

theorem declared_identifiers_apart :
    ((beside "plane").assign .null).emitted = ["geo.Point", "plane.IPoint"] ∧
      ∃ named definitions, ((beside "plane").assign .null).result = .ok named ∧
        named.definitions = .ok definitions ∧
        ((definitions.flatMap (Definition.identifiers { withClasses := true })).map
          Identifier.key).Nodup := by
  have he : ((beside "plane").assign .null).emitted = ["geo.Point", "plane.IPoint"] := by
    decide +kernel
  obtain ⟨named, definitions, hn, hd, hi, -⟩ := declared_identifiers (wellFormed_beside "plane")
    (by rw [he]; decide) { withClasses := true }
  refine ⟨he, named, definitions, hn, hd, hi.2 fun _ own hm other ho hs hx => ?_⟩
  cases hn
  cases hd
  obtain hm | hm := List.mem_pair.1 hm
  · cases hm
    obtain ho | ho := List.mem_pair.1 ho
    · subst ho
      exact absurd hx (by decide +kernel)
    · subst ho
      exact absurd (Json.str.inj hs) (by decide)
  · cases hm

/-- In one namespace they are declared under one identifier, though their full names differ. -/
theorem declared_identifiers_meeting :
    (beside "geo").WellFormed ∧ ((beside "geo").assign .null).emitted.Nodup ∧
      ∃ named definitions, ((beside "geo").assign .null).result = .ok named ∧
        named.definitions = .ok definitions ∧
        ¬((definitions.flatMap (Definition.identifiers { withClasses := true })).map
          Identifier.key).Nodup := by
  refine ⟨wellFormed_beside "geo", by decide +kernel, _, _, rfl, rfl, fun hd => ?_⟩
  have hp : [(Json.str "geo", "IPoint"), (.str "geo", "Point"), (.str "geo", "IPoint")].Nodup := hd
  simp at hp

end Schema

end AvroBindings
