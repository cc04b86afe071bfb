import AvroBindings.Proofs.Code.Markup
import AvroBindings.Proofs.Success

/-! Generated bindings are closed. Every type and every class that they mention is declared in
them, under the very name they have for it, in the block of the namespace of its definition or at
top level where there is none. -/

namespace AvroBindings

inductive Declaration.Kind where
  | enum
  | interface
  | classKind
deriving DecidableEq, Repr

def Declaration.kind : Declaration → Declaration.Kind
  | .enumeration .. | .stringUnion .. => .enum
  | .interface .. => .interface
  | .classOf _ => .classKind

/-- The text is a declaration of a kind under a name. -/
inductive Declares : Declaration.Kind → String → String → Prop
  | enumeration (constant : Bool) (name rest : String) :
    Declares .enum name
      ("export " ++ (if constant then "const " else "") ++ "enum " ++ name ++ " \x7b\n" ++ rest)
  | stringUnion (name rest : String) : Declares .enum name ("export type " ++ name ++ " = " ++ rest)
  | interface (name rest : String) :
    Declares .interface name ("export interface " ++ name ++ " \x7b\n" ++ rest)
  | classOf (name rest : String) :
    Declares .classKind name ("export class " ++ name ++ " implements " ++ rest)

theorem Declares.append {kind : Declaration.Kind} {name text : String}
    (h : Declares kind name text) (more : String) : Declares kind name (text ++ more) := by
  cases h with
  | enumeration constant name rest => exact String.append_assoc ▸ .enumeration constant name _
  | stringUnion name rest => exact String.append_assoc ▸ .stringUnion name _
  | interface name rest => exact String.append_assoc ▸ .interface name _
  | classOf name rest => exact String.append_assoc ▸ .classOf name _

theorem Declaration.declares_render (own : Declaration) :
    Declares own.kind own.name own.render := by
  cases own with
  | enumeration constant name symbols => exact .append (.enumeration constant name _) _
  | stringUnion name symbols => exact .stringUnion name _
  | interface name properties => exact .append (.interface name _) _
  | classOf declaration =>
    have hr : ∃ rest, declaration.render =
        "export class " ++ declaration.name ++ " implements " ++ rest := by
      unfold ClassDeclaration.render
      simp only [String.append_assoc, -String.reduceAppend]
      exact ⟨_, rfl⟩
    obtain ⟨rest, hr⟩ := hr
    change Declares .classKind declaration.name declaration.render
    rw [hr]
    exact .classOf declaration.name rest

namespace Declares

def words (text : String) : List String := (text.toList.splitOn ' ').map String.ofList

/-- The kind and the name that a text declares, as its first words tell them. -/
def heading? (text : String) : Option (Declaration.Kind × String) :=
  match words text with
  | _ :: "enum" :: name :: _ => some (.enum, name)
  | _ :: "const" :: _ :: name :: _ => some (.enum, name)
  | _ :: "type" :: name :: _ => some (.enum, name)
  | _ :: "interface" :: name :: _ => some (.interface, name)
  | _ :: "class" :: name :: _ => some (.classKind, name)
  | _ => none

theorem words_append {text before name after : String} {found : List String}
    (hn : ' ' ∉ name.toList) (hb : words before = found)
    (ht : text.toList = before.toList ++ ' ' :: (name.toList ++ ' ' :: after.toList)) :
    words text = found ++ name :: words after := by
  unfold words at hb ⊢
  rw [ht, List.splitOn_append_cons_self, List.splitOn_append_cons_self,
    List.splitOn_eq_singleton hn, List.map_append, hb, List.singleton_append, List.map_cons,
    String.ofList_toList]

variable {kind other : Declaration.Kind} {name another text : String}

theorem heading?_eq (h : Declares kind name text) (hn : ' ' ∉ name.toList) :
    heading? text = some (kind, name) := by
  unfold heading?
  cases h with
  | enumeration constant name rest =>
    cases constant with
    | false =>
      have hb : words "export enum" = ["export", "enum"] := by decide +kernel
      rw [@words_append _ _ _ ("\x7b\n" ++ rest) _ hn hb (by simp)]
      rfl
    | true =>
      have hb : words "export const enum" = ["export", "const", "enum"] := by decide +kernel
      rw [@words_append _ _ _ ("\x7b\n" ++ rest) _ hn hb (by simp)]
      rfl
  | stringUnion name rest =>
    have hb : words "export type" = ["export", "type"] := by decide +kernel
    rw [@words_append _ _ _ ("= " ++ rest) _ hn hb (by simp)]
    rfl
  | interface name rest =>
    have hb : words "export interface" = ["export", "interface"] := by decide +kernel
    rw [@words_append _ _ _ ("\x7b\n" ++ rest) _ hn hb (by simp)]
    rfl
  | classOf name rest =>
    have hb : words "export class" = ["export", "class"] := by decide +kernel
    rw [@words_append _ _ _ ("implements " ++ rest) _ hn hb (by simp)]
    rfl

/-- No text declares two names without blanks. -/
theorem unique (h : Declares kind name text) (ho : Declares other another text)
    (hn : ' ' ∉ name.toList) (ha : ' ' ∉ another.toList) : kind = other ∧ name = another := by
  have he := (heading?_eq h hn).symm.trans (heading?_eq ho ha)
  exact Prod.mk.inj (Option.some.inj he)

end Declares

/-- The kind of declaration that a name of a definition asks for. -/
def Definition.kindOf : Definition → Mention → Declaration.Kind
  | _, .value _ => .classKind
  | .enum _, .type _ => .enum
  | .record _, .type _ => .interface

namespace Declaration

variable {context : Context} {mention : Mention}

theorem accounts_of_properties (hc : context.Proper) {record : Record}
    (h : (Schema.record record).WellFormed) {properties : List Property}
    (hp : record.fieldList.mapM (Property.ofField context) = .ok properties)
    (hm : mention ∈ properties.flatMap (·.type.mentions)) :
    ∃ type ∈ record.fields.types, type.Accounts context mention := by
  obtain ⟨hr, hw⟩ := Schema.wellFormed_record.1 h
  obtain ⟨property, hi, hm⟩ := List.mem_flatMap.1 hm
  obtain ⟨field, hf, ho⟩ := Traversal.of_mem_mapM hp hi
  obtain ⟨name, type, hn, ht, hs⟩ := (hr.of_mem hf).exists_eq
  have hmem : type ∈ record.fields.types := Record.mem_types.2 ⟨field, hf, hs⟩
  rw [Property.ofField_eq hn ht] at ho
  obtain ⟨expression, he, rfl⟩ := Traversal.map_eq_ok_iff.1 ho
  exact ⟨type, hmem, TypeExpr.accounts_of_ofProperty hc (hw type hmem) he hm⟩

theorem accounts_of_assignments (hc : context.Proper) {record : Record}
    (h : (Schema.record record).WellFormed) {direction : Direction}
    {assignments : List Assignment}
    (ha : record.fieldList.mapM (Assignment.ofField context direction) = .ok assignments)
    (hm : mention ∈ assignments.flatMap (·.value.mentions)) :
    ∃ type ∈ record.fields.types, type.Accounts context mention := by
  obtain ⟨hr, hw⟩ := Schema.wellFormed_record.1 h
  obtain ⟨assignment, hi, hm⟩ := List.mem_flatMap.1 hm
  obtain ⟨field, hf, ho⟩ := Traversal.of_mem_mapM ha hi
  obtain ⟨name, type, hn, ht, hs⟩ := (hr.of_mem hf).exists_eq
  have hmem : type ∈ record.fields.types := Record.mem_types.2 ⟨field, hf, hs⟩
  rw [Assignment.ofField_eq hn ht] at ho
  obtain ⟨conversion, hv, rfl⟩ := Traversal.map_eq_ok_iff.1 ho
  obtain hm | ha := Conversion.accounted hc direction (hw type hmem) _ _ _ _ hv mention hm
  · cases hm
  · exact ⟨type, hmem, ha⟩

theorem accounts_of_classOfRecord (hc : context.Proper) {record : Record}
    (h : (Schema.record record).WellFormed) {own : Declaration}
    (ho : classOfRecord context record = .ok own) (hm : mention ∈ own.mentions) :
    ∃ type ∈ record.fields.types, type.Accounts context mention := by
  have hr : record.Proper := (Schema.wellFormed_record.1 h).1
  obtain ⟨declaration, hd, rfl⟩ := Traversal.map_eq_ok_iff.1 ho
  obtain ⟨properties, reads, writes, hp, hr, hs, rfl⟩ := ClassDeclaration.of_ofRecord hr hd
  simp only [mentions, List.append_assoc, List.mem_append] at hm
  obtain hm | hm | hm := hm
  · exact accounts_of_properties hc h hp hm
  · exact accounts_of_assignments hc h hr hm
  · exact accounts_of_assignments hc h hs hm

theorem accounts_of_ofRecord (hc : context.Proper) {record : Record}
    (h : (Schema.record record).WellFormed) {own : Declaration}
    (ho : ofRecord context record = .ok own) (hm : mention ∈ own.mentions) :
    ∃ type ∈ record.fields.types, type.Accounts context mention := by
  rw [ofRecord_eq (Schema.wellFormed_record.1 h).1] at ho
  obtain ⟨properties, hp, rfl⟩ := Traversal.map_eq_ok_iff.1 ho
  exact accounts_of_properties hc h hp hm

theorem ofEnum_eq_ok {options : Options} {definition : Enum} (h : definition.Proper)
    {own : Declaration} (ho : ofEnum options definition = .ok own) :
    own.kind = .enum ∧ own.name = definition.attributes.shortName ∧ own.mentions = [] := by
  unfold ofEnum at ho
  rw [h.named.titled.name_eq, h.legible.symbols_eq] at ho
  simp only [Traversal.ok_bind] at ho
  cases hs : options.effectiveStyle <;> rw [hs] at ho <;> cases ho <;> exact ⟨rfl, rfl, rfl⟩

end Declaration

namespace Inventory

variable {inventory : Inventory} {schema : Schema} {context : Context}
  {declarations : List (Json × Declaration)}

theorem exists_declared (h : inventory.Of schema) (hw : schema.WellFormed)
    (hd : inventory.declared context = .ok declarations) {definition : Definition}
    (hm : definition ∈ schema.defined) {mention : Mention}
    (hn : definition.Names context.options mention)
    (hv : ∀ className, mention = .value className → context.options.withClasses) :
    ∃ own, (definition.attributes.space, own) ∈ declarations ∧
      own.kind = definition.kindOf mention ∧
      mention.name = .str (context.options.refer definition.attributes.space own.name) := by
  obtain ⟨he, hr, hc⟩ := exists_of_declared hd
  have hs := Schema.mem_defined.1 hm
  cases hn with
  | type =>
    cases definition with
    | enum enum =>
      have hi := h.mem_enums.2 hs
      obtain ⟨own, ho⟩ := he enum hi
      obtain ⟨hk, hn, -⟩ := Declaration.ofEnum_eq_ok (h.enum_proper hw enum hi) ho
      refine ⟨own, (mem_declared hd).2 (.inl ⟨enum, hi, ho, rfl⟩), hk, ?_⟩
      rw [hn]
      rfl
    | record record =>
      have hi := h.mem_records.2 hs
      obtain ⟨own, ho⟩ := hr record hi
      refine ⟨own, (mem_declared hd).2 (.inr (.inl ⟨record, hi, ho, rfl⟩)), ?_⟩
      rw [Declaration.ofRecord_eq (h.record_wellFormed hw record hi).proper] at ho
      obtain ⟨properties, -, rfl⟩ := Traversal.map_eq_ok_iff.1 ho
      exact ⟨rfl, rfl⟩
  | value record =>
    have hi : record ∈ inventory.classes context.options :=
      mem_classes.2 ⟨hv _ rfl, h.mem_records.2 hs⟩
    obtain ⟨own, ho⟩ := hc record hi
    refine ⟨own, (mem_declared hd).2 (.inr (.inr ⟨record, hi, ho, rfl⟩)), ?_⟩
    have hp := (h.record_wellFormed hw record (mem_classes.1 hi).2).proper
    obtain ⟨declaration, hk, rfl⟩ := Traversal.map_eq_ok_iff.1 ho
    obtain ⟨properties, reads, writes, -, -, -, rfl⟩ := ClassDeclaration.of_ofRecord hp hk
    exact ⟨rfl, rfl⟩

theorem accounts_of_declared (hc : context.Proper) (h : inventory.Of schema)
    (hw : schema.WellFormed) (hd : inventory.declared context = .ok declarations) {space : Json}
    {own : Declaration} (hm : (space, own) ∈ declarations) {mention : Mention}
    (hn : mention ∈ own.mentions) :
    (∃ record ∈ inventory.records, ∃ type ∈ record.fields.types, type.Accounts context mention) ∧
      ∀ className, mention = .value className → context.options.withClasses := by
  obtain ⟨enum, hi, ho, -⟩ | ⟨record, hi, ho, -⟩ | ⟨record, hi, ho, -⟩ := (mem_declared hd).1 hm
  · obtain ⟨-, -, he⟩ := Declaration.ofEnum_eq_ok (h.enum_proper hw enum hi) ho
    rw [he] at hn
    cases hn
  · have hr := h.record_wellFormed hw record hi
    refine ⟨⟨record, hi, Declaration.accounts_of_ofRecord hc hr ho hn⟩, ?_⟩
    rw [Declaration.ofRecord_eq hr.proper] at ho
    obtain ⟨properties, -, rfl⟩ := Traversal.map_eq_ok_iff.1 ho
    obtain ⟨property, -, hp⟩ := List.mem_flatMap.1 hn
    obtain ⟨name, rfl⟩ := property.type.mentions_type mention hp
    intro className he
    cases he
  · obtain ⟨hv, hs⟩ := mem_classes.1 hi
    have hr := h.record_wellFormed hw record hs
    exact ⟨⟨record, hs, Declaration.accounts_of_classOfRecord hc hr ho hn⟩, fun _ _ => hv⟩

theorem interface_of_class (h : inventory.Of schema) (hw : schema.WellFormed)
    (hd : inventory.declared context = .ok declarations) {space : Json} {own : ClassDeclaration}
    (hm : (space, .classOf own) ∈ declarations) :
    (∃ properties, (space, .interface own.interface properties) ∈ declarations) ∧
      own.deserializer.className = own.name ∧ own.serializer.className = own.name := by
  obtain ⟨-, hr, -⟩ := exists_of_declared hd
  obtain ⟨enum, hi, ho, -⟩ | ⟨record, hi, ho, -⟩ | ⟨record, hi, ho, rfl⟩ := (mem_declared hd).1 hm
  · obtain ⟨hk, -, -⟩ := Declaration.ofEnum_eq_ok (h.enum_proper hw enum hi) ho
    cases hk
  · rw [Declaration.ofRecord_eq (h.record_wellFormed hw record hi).proper] at ho
    obtain ⟨properties, -, he⟩ := Traversal.map_eq_ok_iff.1 ho
    cases he
  · have hs := (mem_classes.1 hi).2
    have hp := (h.record_wellFormed hw record hs).proper
    obtain ⟨interface, hf⟩ := hr record hs
    have hf' := hf
    rw [Declaration.ofRecord_eq hp] at hf'
    obtain ⟨properties, -, rfl⟩ := Traversal.map_eq_ok_iff.1 hf'
    obtain ⟨declaration, hk, he⟩ := Traversal.map_eq_ok_iff.1 ho
    cases he
    obtain ⟨-, -, -, -, -, -, rfl⟩ := ClassDeclaration.of_ofRecord hp hk
    exact ⟨⟨properties, (mem_declared hd).2 (.inr (.inl ⟨record, hs, hf, rfl⟩))⟩, rfl, rfl⟩

theorem exists_neighbour (h : inventory.Of schema) (hw : schema.WellFormed)
    (hd : inventory.declared context = .ok declarations) {space : Json} {own : Declaration}
    (hm : (space, own) ∈ declarations) {name : String} (hn : name ∈ own.neighbours) :
    ∃ neighbour, (space, neighbour) ∈ declarations ∧ neighbour.name = name := by
  cases own with
  | classOf declaration =>
    obtain ⟨⟨properties, hi⟩, hr, hs⟩ := interface_of_class h hw hd hm
    simp only [Declaration.neighbours, hr, hs, List.mem_cons, List.not_mem_nil, or_false] at hn
    obtain rfl | rfl | rfl | rfl := hn
    · exact ⟨_, hm, rfl⟩
    · exact ⟨_, hi, rfl⟩
    · exact ⟨_, hm, rfl⟩
    · exact ⟨_, hm, rfl⟩
  | _ => exact ⟨_, hm, (List.mem_singleton.1 hn).symm⟩

end Inventory

/-- A text stands in the block of its namespace, or as one of the parts at top level. -/
def Bundle.Places (options : Options) (parts : List String) (space : Json) (own : String) : Prop :=
  match options.withoutNamespaces, space with
  | false, .str name =>
    ∃ texts, own ∈ texts ∧
      "export namespace " ++ name ++ " " ++ Layout.braces (Layout.paragraphs texts) ∈ parts
  | _, _ => own ∈ parts

theorem Bundle.places_units {options : Options} {texts : List (Json × String)}
    {groups : List (Json × List String)} (h : Holds groups texts)
    (hs : ∀ item ∈ texts, item.1.IsSpace) {space : Json} {own : String}
    (hm : (space, own) ∈ texts) : Places options (units options texts groups) space own := by
  have hp : space.IsSpace := hs _ hm
  obtain ⟨group, hg, ho⟩ := (h.mem space own).2 hm
  unfold Places units
  cases hw : options.withoutNamespaces with
  | true => exact List.mem_map_of_mem hm
  | false =>
    cases hp with
    | none => exact List.mem_flatMap.2 ⟨_, hg, ho⟩
    | text name _ => exact ⟨group, ho, List.mem_flatMap.2 ⟨_, hg, List.mem_singleton_self _⟩⟩

namespace Schema

variable {document : Schema} {options : Options}

theorem mem_defined_of_leads {inventory : Inventory} (ho : inventory.Of document.augmented)
    {node : Schema} {definition : Definition} (hn : node ∈ document.augmented.positions)
    (hl : (document.context options inventory).Leads node definition) :
    definition ∈ document.augmented.defined := by
  cases hl with
  | inline => exact mem_defined.2 hn
  | reference name definition h => exact (of_resolve ho h).1

/-- Whatever type or class the bindings of a well-formed document mention, inline or through a
reference, they declare the definition that stands for it: as the kind of declaration that is asked
for, under the name it is mentioned by, and in the block of its namespace or at top level. All of this
is told of the text. Each part of it is a declaration that begins with its kind and its name, and the
names that are marked in its code are those it mentions and those of declarations beside it. -/
theorem generate_closed (h : document.WellFormed) {text : String}
    (hg : (generate options document).result = .ok text) :
    ∃ augmented inventory declarations groups,
      (document.augment {}).2.result = .ok augmented ∧
      Inventory.ofSchema augmented = .ok inventory ∧
      (inventory.declarations ⟨options, (document.augment {}).1, inventory.table⟩).result =
        .ok declarations ∧
      Bundle.group (declarations.map fun (space, own) => (space, own.render)) = .ok groups ∧
      text = Layout.paragraphs (Bundle.units options
        (declarations.map fun (space, own) => (space, own.render)) groups) ∧
      (∀ space own, (space, own) ∈ declarations →
        Declares own.kind own.name own.render ∧ own.markup.text = own.render ∧
          (∀ mention, .mention mention ∈ own.markup.marks ↔ mention ∈ own.mentions) ∧
          ∀ name, .neighbour name ∈ own.markup.marks →
            ∃ neighbour, (space, neighbour) ∈ declarations ∧ neighbour.name = name) ∧
      (∀ space own, (space, own) ∈ declarations → ∀ mention ∈ own.mentions,
        ∃ record ∈ inventory.records, ∃ type ∈ record.fields.types, ∃ node ∈ type.constituents,
        ∃ definition ∈ augmented.defined,
          Context.Leads ⟨options, (document.augment {}).1, inventory.table⟩ node definition ∧
          ∃ declaration, (definition.attributes.space, declaration) ∈ declarations ∧
            declaration.kind = definition.kindOf mention ∧
            mention.name = .str (options.refer definition.attributes.space declaration.name) ∧
            Declares declaration.kind declaration.name declaration.render ∧
            Bundle.Places options (Bundle.units options
              (declarations.map fun (space, own) => (space, own.render)) groups)
              definition.attributes.space declaration.render) ∧
      ∀ space own, (space, Declaration.classOf own) ∈ declarations →
        (∃ properties, (space, .interface own.interface properties) ∈ declarations) ∧
          own.deserializer.className = own.name ∧ own.serializer.className = own.name := by
  have hw := wellFormed_augmented h
  obtain ⟨hu, inventory, hi, ho, declarations, hd, hj⟩ := exists_of_generate h hg
  have hs := isSpace_of_mem_rendered h ho hd
  obtain ⟨groups, hh, he, hp⟩ := Bundle.exists_join options hs
  rw [he] at hj
  cases hj
  have hc := @proper_context document inventory options h ho
  rw [augment_fst h]
  refine ⟨_, inventory, declarations, groups, augment_of_unambiguous h hu, hi, ?_, hp, rfl, ?_, ?_,
    fun space own hm => Inventory.interface_of_class ho hw hd hm⟩
  · exact (Inventory.declarations_result ho hw _).trans hd
  · intro space own hm
    refine ⟨own.declares_render, own.text_markup, fun mention => Declaration.mention_mem_marks, ?_⟩
    intro name hn
    exact Inventory.exists_neighbour ho hw hd hm (Declaration.neighbour_mem_marks.1 hn)
  · intro space own hm mention hn
    obtain ⟨⟨record, hr, type, ht, node, hk, definition, hl, ha⟩, hv⟩ :=
      Inventory.accounts_of_declared hc ho hw hd hm hn
    have hp : node ∈ document.augmented.positions := positions_trans (ho.mem_records.1 hr)
      (positions_of_child ht (constituents_subset_positions type hk))
    have hf := mem_defined_of_leads ho hp hl
    obtain ⟨declaration, hm, hk', he⟩ := Inventory.exists_declared ho hw hd hf ha hv
    have hm' : (definition.attributes.space, declaration.render) ∈
        declarations.map fun (space, own) => (space, own.render) :=
      List.mem_map_of_mem hm
    exact ⟨record, hr, type, ht, node, hk, definition, hf, hl, declaration, hm, hk', he,
      declaration.declares_render, Bundle.places_units hh hs hm'⟩

theorem generate_closed_sample :
    ∃ (text : String) (declarations : List (Json × Declaration)) (groups : _),
      (generate ⟨false, false, .enum, true⟩ sample).result = .ok text ∧
      text = Layout.paragraphs (Bundle.units ⟨false, false, .enum, true⟩
        (declarations.map fun (space, own) => (space, own.render)) groups) ∧
      ∀ space own, (space, own) ∈ declarations → own.markup.text = own.render ∧
        ∀ mention, .mention mention ∈ own.markup.marks →
          ∃ other declaration, (other, declaration) ∈ declarations ∧
            mention.name = .str (Options.refer ⟨false, false, .enum, true⟩ other declaration.name) ∧
            Declares declaration.kind declaration.name declaration.render := by
  have hs : (generate ⟨false, false, .enum, true⟩ sample).result.isOk := by decide +kernel
  cases hg : (generate ⟨false, false, .enum, true⟩ sample).result with
  | error e =>
    rw [hg] at hs
    cases hs
  | ok text =>
    obtain ⟨_, _, declarations, groups, -, -, -, -, he, ht, hc, -⟩ :=
      generate_closed wellFormed_sample hg
    refine ⟨text, declarations, groups, rfl, he, fun space own hm => ?_⟩
    obtain ⟨-, ht, hn, -⟩ := ht space own hm
    refine ⟨ht, fun mention hk => ?_⟩
    obtain ⟨_, -, _, -, _, -, definition, -, -, declaration, hd, -, hr, hx, -⟩ :=
      hc space own hm mention ((hn mention).1 hk)
    exact ⟨_, declaration, hd, hr, hx⟩

end Schema

end AvroBindings
