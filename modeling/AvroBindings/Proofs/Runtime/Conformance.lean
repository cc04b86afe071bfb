import AvroBindings.Proofs.Script.Classes

/-! Values that conform to schemas. A value is related to what it becomes when it is written and
read back: the same value, but for null in an optional field, which is left out. It agrees with that,
up to what is missing in instances. -/

namespace AvroBindings

/-- Alternatives of a union that have one name have the same conversions. They do where the names
are different, as they have to be in an Avro union. -/
def Schema.Coherent (context : Context) (alternatives : List Schema) : Prop :=
  ∀ left ∈ alternatives, ∀ right ∈ alternatives,
    context.typeName left = context.typeName right →
    ∀ direction access depth, Conversion.ofSchema direction context left access depth false =
      Conversion.ofSchema direction context right access depth false

namespace Runtime

variable {κ ν : Type}

namespace World

variable (world : World κ ν)

def Admits : Primitive → Value κ ν → Prop
  | .null, value => value = .null
  | .boolean, value => ∃ boolean, value = .boolean boolean
  | .int, value | .long, value => ∃ number, value = .number number ∧ world.isInteger number
  | .float, value | .double, value => ∃ number, value = .number number
  | .string, value => ∃ text, value = .string text
  | .bytes, value => ∃ bytes, value = .buffer bytes

theorem passes_ofPrimitive [DecidableEq κ] {own : κ} {name : Primitive} {value : Value κ ν} :
    world.passes own value (Test.ofPrimitive name) ↔ world.Admits name value := by
  cases name <;> cases value <;>
    simp [Test.ofPrimitive, passes, Value.typeName, Admits, Value.isNull]

section Fits

variable (context : Context) (related : Record → Value κ ν → Value κ ν → Prop)

def FitsDefinition : Definition → Value κ ν → Value κ ν → Prop
  | .enum own, value, restored =>
    (∃ symbol ∈ own.symbolTexts, value = .string symbol) ∧ restored = value
  | .record own, value, restored => related own value restored

mutual
/-- A value of a schema, with what is restored of it. The relation is told for records. -/
def Fits : Schema → Value κ ν → Value κ ν → Prop
  | .primitive name _, value, restored => world.Admits name value ∧ restored = value
  | .reference name, value, restored => ∃ definition,
    context.resolve (.str name) = .ok definition ∧ FitsDefinition related definition value restored
  | .enum own, value, restored => FitsDefinition related (.enum own) value restored
  | .record own, value, restored => FitsDefinition related (.record own) value restored
  | .union alternatives, value, restored => FitsAny alternatives value restored
  | .array _ (some items) _, value, restored => ∃ pairs : List (Value κ ν × Value κ ν),
    value = .array (pairs.map (·.1)) ∧ restored = .array (pairs.map (·.2)) ∧
      ∀ pair ∈ pairs, Fits items pair.1 pair.2
  | .map _ (some values) _, value, restored => ∃ entries : List (String × Value κ ν × Value κ ν),
    (entries.map (·.1)).Nodup ∧
      value = .object none (entries.map fun entry => (entry.1, entry.2.1)) ∧
      restored = .object none (entries.map fun entry => (entry.1, entry.2.2)) ∧
      ∀ entry ∈ entries, Fits values entry.2.1 entry.2.2
  | _, _, _ => False

def FitsAny : List Schema → Value κ ν → Value κ ν → Prop
  | [], _, _ => False
  | schema :: rest, value, restored => Fits schema value restored ∨ FitsAny rest value restored
end

theorem fitsAny_iff {alternatives : List Schema} {value restored : Value κ ν} :
    world.FitsAny context related alternatives value restored ↔
      ∃ alternative ∈ alternatives, world.Fits context related alternative value restored := by
  induction alternatives with
  | nil => simp [FitsAny]
  | cons alternative rest ih => simp [FitsAny, ih]

theorem fits_of_leads {node : Schema} {definition : Definition}
    (h : context.Leads node definition) {value restored : Value κ ν} :
    world.Fits context related node value restored ↔
      FitsDefinition related definition value restored := by
  cases h with
  | inline => cases definition <;> (rw [Definition.schema, Fits])
  | reference name _ h =>
    rw [Fits, h]
    constructor
    · rintro ⟨other, ho, hf⟩
      cases ho
      exact hf
    · exact fun hf => ⟨definition, rfl, hf⟩

variable {context related} in
variable {world} in
/-- Induction on the way a value conforms. -/
@[elab_as_elim]
theorem fits_induction
    {motive : ∀ schema value restored, world.Fits context related schema value restored → Prop}
    (primitive : ∀ name wrapper value h, world.Admits name value →
      motive (.primitive name wrapper) value value h)
    (definition : ∀ node definition value restored h, context.Leads node definition →
      FitsDefinition related definition value restored → motive node value restored h)
    (union : ∀ alternatives alternative value restored h hf, alternative ∈ alternatives →
      motive alternative value restored hf → motive (.union alternatives) value restored h)
    (array : ∀ before items after (pairs : List (Value κ ν × Value κ ν)) h
      (hp : ∀ pair ∈ pairs, world.Fits context related items pair.1 pair.2),
      (∀ pair (hm : pair ∈ pairs), motive items pair.1 pair.2 (hp pair hm)) →
      motive (.array before (some items) after) (.array (pairs.map (·.1)))
        (.array (pairs.map (·.2))) h)
    (map : ∀ before values after (entries : List (String × Value κ ν × Value κ ν)) h
      (hp : ∀ entry ∈ entries, world.Fits context related values entry.2.1 entry.2.2),
      (entries.map (·.1)).Nodup →
      (∀ entry (hm : entry ∈ entries), motive values entry.2.1 entry.2.2 (hp entry hm)) →
      motive (.map before (some values) after)
        (.object none (entries.map fun entry => (entry.1, entry.2.1)))
        (.object none (entries.map fun entry => (entry.1, entry.2.2))) h)
    {schema : Schema} {value restored : Value κ ν}
    (h : world.Fits context related schema value restored) : motive schema value restored h := by
  induction schema using Schema.byChildren generalizing value restored with
  | step schema ih =>
    have hd : ∀ own, context.Leads schema own → motive schema value restored h := fun own hl =>
      definition schema own value restored h hl ((world.fits_of_leads context related hl).1 h)
    have hf := h
    cases schema with
    | primitive name wrapper =>
      rw [Fits] at hf
      obtain ⟨ha, rfl⟩ := hf
      exact primitive name wrapper _ h ha
    | reference name =>
      rw [Fits] at hf
      obtain ⟨own, hr, -⟩ := hf
      exact hd own (.reference name own hr)
    | enum own => exact hd (.enum own) (.inline (.enum own))
    | record own => exact hd (.record own) (.inline (.record own))
    | union alternatives =>
      rw [Fits, fitsAny_iff] at hf
      obtain ⟨alternative, hm, hf⟩ := hf
      exact union alternatives alternative value restored h hf hm (ih alternative hm hf)
    | array before items after =>
      cases items with
      | none => cases h
      | some items =>
        rw [Fits] at hf
        obtain ⟨pairs, rfl, rfl, hp⟩ := hf
        exact array before items after pairs h hp fun pair hm => ih items (by simp) (hp pair hm)
    | map before values after =>
      cases values with
      | none => cases h
      | some values =>
        rw [Fits] at hf
        obtain ⟨entries, hn, rfl, rfl, hp⟩ := hf
        exact map before values after entries h hp hn fun entry hm =>
          ih values (by simp) (hp entry hm)
    | unknown value => cases h

/-- An optional field may be left out, and null counts as left out where there is another choice. -/
def Misses (type : Schema) (value : Value κ ν) : Prop :=
  type.isOptional ∧ (value = .undefined ∨ (type.isMultiUnion ∧ value = .null))

def FitsField (type : Schema) (value restored : Value κ ν) : Prop :=
  (Misses type value ∧ restored = .undefined) ∨
    (¬Misses type value ∧ world.Fits context related type value restored)

end Fits

/-- An instance of the class of a record, with fields that conform, to some depth of records. It has
no other properties, and all the fields are restored. -/
def InstanceTo (context : Context) (classOf : Record → κ) :
    Nat → Record → Value κ ν → Value κ ν → Prop
  | 0, _, _, _ => False
  | depth + 1, own, value, restored => ∃ (properties : Properties κ ν) (back : Field → Value κ ν),
    value = .object (some (classOf own)) properties ∧
    (∀ property ∈ properties, ∃ field ∈ own.fieldList, field.label = property.1) ∧
    restored = .object (some (classOf own)) (own.fieldList.map fun field =>
      (field.label, back field)) ∧
    ∀ field ∈ own.fieldList, ∃ type, field.type? = some type ∧
      world.FitsField context (InstanceTo context classOf depth) type
        (properties.get field.label) (back field)

def Instance (context : Context) (classOf : Record → κ) (own : Record)
    (value restored : Value κ ν) : Prop :=
  ∃ depth, world.InstanceTo context classOf depth own value restored

/-- Every class is what is read in the text of the class that is generated for its record, and the
name of a class stands for it in the methods of all classes. -/
structure Realizes (context : Context) (records : List Record) (classOf : Record → κ) : Prop where
  declared : ∀ own ∈ records, ∃ declaration,
    ClassDeclaration.ofRecord context own = .ok declaration ∧
    ClassDeclaration.read declaration.render = some (world.declaration (classOf own))
  named : ∀ own ∈ records, ∀ other ∈ records,
    world.named (classOf own) ((Definition.record other).className context.options) = classOf other

/-- The world in which classes are their names, with all that is read in their texts. -/
def ofRecords (context : Context) (records : List Record) (isInteger : ν → Bool) :
    World String ν where
  isInteger := isInteger
  declaration name :=
    let found := do
      let own ← records.find? fun own => (Definition.record own).className context.options == name
      let declaration ← (ClassDeclaration.ofRecord context own).toOption
      ClassDeclaration.read declaration.render
    found.getD ⟨name, name, name, [], ⟨name, .deserialize, []⟩, ⟨name, .serialize, []⟩⟩
  named _ name := name

theorem realizes_ofRecords {context : Context} {records : List Record} {isInteger : ν → Bool}
    (hn : ∀ own ∈ records, ∀ other ∈ records,
      (Definition.record own).className context.options =
        (Definition.record other).className context.options → own = other)
    (hd : ∀ own ∈ records, ∃ declaration, ClassDeclaration.ofRecord context own = .ok declaration ∧
      (ClassDeclaration.read declaration.render).isSome) :
    (ofRecords context records isInteger).Realizes context records
      fun own => (Definition.record own).className context.options where
  declared own hm := by
    obtain ⟨declaration, hd, hr⟩ := hd own hm
    obtain ⟨read, hr⟩ := Option.isSome_iff_exists.1 hr
    have hs : (records.find? fun other => (Definition.record other).className context.options ==
        (Definition.record own).className context.options).isSome :=
      List.find?_isSome.2 ⟨own, hm, beq_iff_eq.2 rfl⟩
    obtain ⟨found, hf⟩ := Option.isSome_iff_exists.1 hs
    have hp := List.find?_some hf
    obtain rfl := hn found (List.mem_of_find?_eq_some hf) own hm (eq_of_beq hp)
    exact ⟨declaration, hd, by simp [ofRecords, hf, hd, hr, Except.toOption]⟩
  named own _ other _ := rfl

end World

/-- Equal values, but for properties of instances that are null or absent in the first one and
undefined in the second one. -/
inductive Agrees : Value κ ν → Value κ ν → Prop where
  | same (value : Value κ ν) : Agrees value value
  | array (pairs : List (Value κ ν × Value κ ν)) (h : ∀ pair ∈ pairs, Agrees pair.1 pair.2) :
    Agrees (.array (pairs.map (·.1))) (.array (pairs.map (·.2)))
  | plain (entries : List (String × Value κ ν × Value κ ν))
    (h : ∀ entry ∈ entries, Agrees entry.2.1 entry.2.2) :
    Agrees (.object none (entries.map fun entry => (entry.1, entry.2.1)))
      (.object none (entries.map fun entry => (entry.1, entry.2.2)))
  | ofClass (own : κ) (properties restored : Properties κ ν)
    (hn : ∀ property ∈ properties, property.1 ∈ restored.map Prod.fst)
    (h : ∀ property ∈ restored,
      ¬((properties.get property.1 = .null ∨ properties.get property.1 = .undefined) ∧
        property.2 = .undefined) → Agrees (properties.get property.1) property.2) :
    Agrees (.object (some own) properties) (.object (some own) restored)

variable {world : World κ ν} {context : Context} {value restored : Value κ ν}

theorem agrees_of_fits {related : Record → Value κ ν → Value κ ν → Prop}
    (hr : ∀ own value restored, related own value restored → Agrees value restored)
    {schema : Schema} (h : world.Fits context related schema value restored) :
    Agrees value restored := by
  induction h using World.fits_induction with
  | primitive name wrapper value => exact .same value
  | definition node definition value restored h hl hf =>
    cases definition with
    | enum own =>
      obtain ⟨-, rfl⟩ := hf
      exact .same restored
    | record own => exact hr own value restored hf
  | union alternatives alternative value restored h hf hm ih => exact ih
  | array before items after pairs h hp ih => exact .array pairs ih
  | map before values after entries h hp hn ih => exact .plain entries ih

/-- What is restored of an instance agrees with it. -/
theorem agrees_of_instanceTo {classOf : Record → κ} (depth : Nat) :
    ∀ own value restored, world.InstanceTo context classOf depth own value restored →
      Agrees value restored := by
  induction depth with
  | zero =>
    intro own value restored h
    cases h
  | succ depth ih =>
    rintro own value restored ⟨properties, back, rfl, hn, rfl, hf⟩
    refine .ofClass _ properties _ (fun property hm => ?_) fun property hm hg => ?_
    · obtain ⟨field, hfield, hl⟩ := hn property hm
      rw [List.map_map]
      exact List.mem_map.2 ⟨field, hfield, hl⟩
    · obtain ⟨field, hfield, rfl⟩ := List.mem_map.1 hm
      obtain ⟨type, -, ⟨⟨-, hv⟩, hu⟩ | ⟨-, hx⟩⟩ := hf field hfield
      · exact absurd ⟨hv.symm.imp And.right id, hu⟩ hg
      · exact agrees_of_fits ih hx

end Runtime

end AvroBindings
