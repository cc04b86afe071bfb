import AvroBindings.Proofs.Code.Definitions
import AvroBindings.Proofs.Schema.Augmented
import AvroBindings.Proofs.Text.Words

/-! Documents whose names are identifiers. What generated code prints of their definitions is made
of words, also after they got their effective names. -/

namespace AvroBindings

/-- The name and the namespace of a definition are made of words. -/
structure Attributes.Worded (attributes : Attributes) : Prop where
  name : Wordy attributes.shortName
  space : Wordy attributes.space.text

def Definition.Worded : Definition → Prop
  | enum own => own.attributes.Worded ∧ ∀ symbol ∈ own.symbolTexts, Word symbol
  | record own => own.attributes.Worded

theorem wordy_dot : Wordy "." := fun _ hc => .inr (List.mem_singleton.1 hc)

namespace Attributes.Worded

variable {attributes : Attributes} {options : Options} {name : Json}

theorem wordy_text (h : attributes.Worded) (hn : attributes.name = .ok name) : Wordy name.text := by
  have hw := h.name
  rwa [shortName, hn] at hw

theorem wordy_fullName (h : attributes.Worded) (hn : Wordy name.text) :
    Wordy (fullName attributes.space name).text := by
  unfold fullName
  split
  next => exact (h.space.append wordy_dot).append hn
  next => exact hn

theorem wordy_referenceName (h : attributes.Worded) (hn : Wordy name.text) :
    Wordy (attributes.referenceName options name).text := by
  unfold referenceName
  split
  next => exact hn
  next => exact h.wordy_fullName hn

theorem wordy_qualifiedName (h : attributes.Worded) (hn : attributes.qualifiedName = .ok name) :
    Wordy name.text := by
  obtain ⟨own, ho, rfl⟩ := Traversal.map_eq_ok_iff.1 hn
  exact h.wordy_fullName (h.wordy_text ho)

theorem wordy_qualifiedDeclarationName (h : attributes.Worded)
    (hn : attributes.qualifiedDeclarationName options = .ok name) : Wordy name.text := by
  obtain ⟨own, ho, rfl⟩ := Traversal.map_eq_ok_iff.1 hn
  exact h.wordy_referenceName (h.wordy_text ho)

theorem wordy_interfaceName (h : attributes.Worded)
    (hn : attributes.interfaceName options = .ok name) : Wordy name.text := by
  obtain ⟨own, ho, rfl⟩ := Traversal.map_eq_ok_iff.1 hn
  split
  next => exact Wordy.append (wordy_of_isDotted (by decide)) (h.wordy_text ho)
  next => exact h.wordy_text ho

theorem wordy_qualifiedInterfaceName (h : attributes.Worded)
    (hn : attributes.qualifiedInterfaceName options = .ok name) : Wordy name.text := by
  obtain ⟨own, ho, rfl⟩ := Traversal.map_eq_ok_iff.1 hn
  exact h.wordy_referenceName (h.wordy_interfaceName ho)

section Named

variable (h : attributes.Worded) (he : attributes.shortName ≠ "")

include h he

theorem word_text (hn : attributes.name = .ok name) : Word name.text where
  wordy := h.wordy_text hn
  ne_empty := by rwa [shortName, hn] at he

theorem word_qualifiedDeclarationName (hn : attributes.qualifiedDeclarationName options = .ok name) :
    Word name.text := by
  refine ⟨h.wordy_qualifiedDeclarationName hn, ?_⟩
  obtain ⟨own, ho, rfl⟩ := Traversal.map_eq_ok_iff.1 hn
  have hw := (h.word_text he ho).ne_empty
  unfold referenceName fullName
  split
  next => exact hw
  next =>
    split
    next => exact fun hs => hw (String.append_eq_empty_iff.1 hs).2
    next => exact hw

theorem word_interfaceName (hn : attributes.interfaceName options = .ok name) : Word name.text := by
  refine ⟨h.wordy_interfaceName hn, ?_⟩
  obtain ⟨own, ho, rfl⟩ := Traversal.map_eq_ok_iff.1 hn
  have hw := (h.word_text he ho).ne_empty
  split
  next => exact fun hs => hw (String.append_eq_empty_iff.1 hs).2
  next => exact hw

end Named

end Attributes.Worded

theorem Definition.Worded.attributes {definition : Definition} (h : definition.Worded) :
    definition.attributes.Worded := by
  cases definition with
  | enum own => exact h.1
  | record own => exact h

/-- The name of a definition is an identifier, or several with dots between them. So is its
namespace, unless it is empty. -/
structure Attributes.Spelled (attributes : Attributes) : Prop where
  name : isDotted attributes.shortName
  space : ∀ space, attributes.space = .str space → space = "" ∨ isDotted space

/-- The names in a node are identifiers, and so are symbols and the names of fields. -/
def Schema.Spelled : Schema → Prop
  | enum own => own.attributes.Spelled ∧ ∀ symbol ∈ own.symbolTexts, isIdentifier symbol.toList
  | record own => own.attributes.Spelled ∧ ∀ field ∈ own.fieldList, isIdentifier field.label.toList
  | _ => True

/-- What is printed of a node is made of words, and of identifiers where it names fields. -/
def Schema.Plain : Schema → Prop
  | enum own => (Definition.enum own).Worded
  | record own => own.attributes.Worded ∧ own.attributes.shortName ≠ "" ∧
    ∀ field ∈ own.fieldList, isIdentifier field.label.toList
  | _ => True

namespace Attributes

variable {attributes : Attributes}

theorem wordy_orNull {value : Json} (h : Wordy value.text) : Wordy value.orNull.text := by
  unfold Json.orNull
  split
  next => exact h
  next => exact wordy_of_isDotted (by decide)

theorem isIdentifier_of_splitLast {text : String} (h : isDotted text) {before after : List Char}
    (hs : splitLast '.' text.toList = some (before, after)) : isIdentifier after := by
  obtain ⟨ht, ha⟩ := eq_of_splitLast hs
  refine List.all_eq_true.1 h after ?_
  rw [ht, List.splitOn_append_cons_self, List.splitOn_eq_singleton ha]
  exact List.mem_append_right _ List.mem_cons_self

theorem Spelled.worded (h : attributes.Spelled) (hn : attributes.Named) : attributes.Worded where
  name := wordy_of_isDotted h.name
  space := by
    obtain hs | ⟨space, hs⟩ := hn.space
    · rw [hs]
      exact wordy_of_isDotted (by decide)
    · rw [hs]
      obtain rfl | hd := h.space space hs
      · exact fun c hc => nomatch hc
      · exact wordy_of_isDotted hd

theorem shortName_rename (space : Json) (name : String) :
    (attributes.rename space (.str name)).shortName = name := by
  unfold shortName
  rw [name_rename]
  rfl

theorem Spelled.effectiveName (h : attributes.Spelled) (hn : attributes.Named) {parent : Json}
    (hp : Wordy parent.text) :
    ∃ space name, attributes.effectiveName parent = .ok (space, .str name) ∧ Wordy space.text ∧
      Word name := by
  have hw := word_of_isDotted h.name
  unfold Attributes.effectiveName
  rw [hn.titled.name_eq, Traversal.ok_bind]
  simp only
  cases hd : splitLast '.' attributes.shortName.toList with
  | some parts =>
    obtain ⟨before, after⟩ := parts
    refine ⟨_, _, rfl, wordy_orNull fun c hc => ?_, word_of_isIdentifier ?_⟩
    · refine hw.wordy c ?_
      rw [(eq_of_splitLast hd).1]
      exact List.mem_append_left _ (by simpa using hc)
    · simpa using isIdentifier_of_splitLast h.name hd
  | none =>
    simp only
    split
    next => exact ⟨parent, _, rfl, hp, hw⟩
    next => exact ⟨_, _, rfl, wordy_orNull (h.worded hn).space, hw⟩

theorem Spelled.settle (h : attributes.Spelled) (hn : attributes.Named) {parent : Json}
    (hp : Wordy parent.text) :
    Wordy (attributes.settle parent).1.text ∧ (attributes.settle parent).2.Worded ∧
      (attributes.settle parent).2.shortName ≠ "" := by
  obtain ⟨space, name, he, hs, hw⟩ := h.effectiveName hn hp
  have hname := attributes.shortName_rename space name
  have hspace : (attributes.rename space (.str name)).space = space := space_rename ..
  rw [settle_eq he]
  refine ⟨hs, ⟨?_, ?_⟩, ?_⟩
  · rw [hname]
    exact hw.wordy
  · rw [hspace]
    exact hs
  · rw [hname]
    exact hw.ne_empty

end Attributes

theorem Enum.symbolTexts_settle (own : Enum) (parent : Json) :
    Enum.symbolTexts ⟨(own.attributes.settle parent).2⟩ = own.symbolTexts := by
  unfold symbolTexts Enum.symbols
  rw [Attributes.get?_settle "symbols" (by decide) (by decide)]

theorem Field.label_named (field : Field) (parent : Json) :
    (field.named parent).label = field.label := by
  obtain ⟨before, _ | type, after⟩ | value := field <;> rfl

theorem Field.label_linked (field : Field) (resolve : String → String) :
    (field.linked resolve).label = field.label := by
  obtain ⟨before, _ | type, after⟩ | value := field <;> rfl

theorem Record.labels_named (own : Record) (parent : Json) :
    (own.named parent).fieldList.map Field.label = own.fieldList.map Field.label := by
  unfold fieldList
  rw [fields_named]
  cases own.fields with
  | listed fields =>
    simp [Fields.named, Field.namedAll_eq, Field.label_named]
  | absent => rfl
  | other value => rfl

theorem Record.labels_linked (own : Record) (resolve : String → String) :
    (own.linked resolve).fieldList.map Field.label = own.fieldList.map Field.label := by
  unfold fieldList
  rw [fields_linked]
  cases own.fields with
  | listed fields =>
    simp [Fields.linked, Field.linkedAll_eq, Field.label_linked]
  | absent => rfl
  | other value => rfl

namespace Schema

variable {schema : Schema}

theorem plain_record {own : Record} : (record own).Plain ↔ own.attributes.Worded ∧
    own.attributes.shortName ≠ "" ∧
    ∀ label ∈ own.fieldList.map Field.label, isIdentifier label.toList := by
  rw [List.forall_mem_map]
  rfl

theorem Spelled.named (h : schema.Spelled) (hp : schema.Proper) {parent : Json}
    (hw : Wordy parent.text) : (schema.named parent).Plain := by
  cases schema with
  | enum own =>
    obtain ⟨ha, hs⟩ := h
    refine ⟨(ha.settle hp.named hw).2.1, ?_⟩
    rw [Enum.symbolTexts_settle]
    exact fun symbol hm => word_of_isIdentifier (hs symbol hm)
  | record own =>
    obtain ⟨ha, hl⟩ := h
    refine plain_record.2 ?_
    rw [Record.attributes_named, Record.labels_named]
    obtain ⟨-, hworded, hn⟩ := ha.settle hp.named hw
    exact ⟨hworded, hn, List.forall_mem_map.2 hl⟩
  | array before items after => cases items <;> trivial
  | map before values after => cases values <;> trivial
  | _ => trivial

theorem Plain.linked (h : schema.Plain) (resolve : String → String) :
    (schema.linked resolve).Plain := by
  cases schema with
  | enum own => exact h
  | record own =>
    rw [plain_record] at h
    refine plain_record.2 ?_
    rwa [Record.attributes_linked, Record.labels_linked]
  | array before items after => cases items <;> trivial
  | map before values after => cases values <;> trivial
  | _ => trivial

theorem wordy_innerSpace (h : schema.Spelled) (hp : schema.Proper) {parent : Json}
    (hw : Wordy parent.text) : Wordy (schema.innerSpace parent).text := by
  cases schema with
  | record own => exact (h.1.settle hp.named hw).1
  | _ => exact hw

/-- With effective names and full references, a document is still made of words. -/
theorem plain_augmented {document : Schema} (h : document.WellFormed)
    (hs : ∀ node ∈ document.positions, node.Spelled) :
    ∀ node ∈ document.augmented.positions, node.Plain := by
  intro node hn
  unfold augmented at hn
  rw [positions_linked, List.mem_map] at hn
  obtain ⟨renamed, hr, rfl⟩ := hn
  have hi : ∀ node ∈ document.positions, ∀ space : Json, Wordy space.text →
      Wordy (node.innerSpace space).text :=
    fun node hn _ => wordy_innerSpace (hs node hn) (h node hn)
  have hw : Wordy Json.null.text := wordy_of_isDotted (by decide)
  obtain ⟨origin, ho, space, hw, rfl⟩ := exists_origin_of_named hi hw hr
  exact ((hs origin ho).named (h origin ho) hw).linked _

end Schema

end AvroBindings
