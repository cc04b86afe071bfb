import AvroBindings.Proofs.Runtime.Inverse

/-! The methods of a class. They convert field by field, so that instances of records are restored,
by induction on the depth of records in them. -/

namespace AvroBindings.Runtime

variable {κ ν : Type} {world : World κ ν} {context : Context} {records : List Record}
  {classOf : Record → κ} {own : Record}

theorem construct_eq (hp : own.Proper) {properties : List Property}
    (ho : own.fieldList.mapM (Property.ofField context) = .ok properties)
    (hd : (world.declaration (classOf own)).properties =
      properties.map fun property => ⟨property.name, false, .any⟩)
    (hn : (own.fieldList.map Field.label).Nodup) (made : Field → Value κ ν) :
    world.construct (classOf own)
        (.object none (own.fieldList.map fun field => (field.label, made field))) =
      .ok (.object (some (classOf own)) (own.fieldList.map fun field =>
        (field.label, made field))) := by
  let object : Properties κ ν := own.fieldList.map fun field => (field.label, made field)
  have hr : object.map Prod.fst = own.fieldList.map Field.label := List.map_map
  have hc : Properties.collect Property.name
      (fun _ property => (Value.object (none : Option κ) object).property property.name)
      (properties.map fun property => ⟨property.name, false, .any⟩) = .ok object := by
    apply Properties.collect_eq (hr ▸ hn)
    rw [List.forall₂_map_left_iff, List.forall₂_map_right_iff]
    refine Traversal.forall₂_of_mapM ho fun field hm property hi => ?_
    obtain ⟨name, type, hname, htype, -⟩ := (hp.of_mem hm).exists_eq
    rw [Property.ofField_eq hname htype] at hi
    obtain ⟨expression, -, rfl⟩ := Traversal.map_eq_ok_iff.1 hi
    obtain rfl := (hp.of_mem hm).label_eq hname
    refine ⟨rfl, fun _ => congrArg Except.ok ?_⟩
    exact Properties.get_of_mem (hr ▸ hn) (List.mem_map_of_mem hm)
  unfold World.construct
  rw [hd, hc]
  rfl

variable [DecidableEq κ] {call : κ → Direction → Value κ ν → Except Failure (Value κ ν)}

section Untyped

variable (world) (self : κ) (call)

mutual
theorem World.eval_untyped (conversion : Conversion) (scope : Scope κ ν) :
    world.eval self call scope conversion.untyped = world.eval self call scope conversion := by
  cases conversion with
  | same access => rfl
  | call className direction access => rfl
  | elements access element braced body =>
    have hb := World.eval_untyped body
    simp only [Conversion.untyped, World.eval, hb]
  | entries access depth type body =>
    have hb := World.eval_untyped body
    simp only [Conversion.untyped, World.eval, hb]
  | dispatch direction branches =>
    have hb := World.evalBranches_untyped branches
    simp only [Conversion.untyped, World.eval, hb]

theorem World.evalBranches_untyped (branches : List Branch) (scope : Scope κ ν)
    (direction : Direction) :
    world.evalBranches self call scope direction (Branch.untypedAll branches) =
      world.evalBranches self call scope direction branches := by
  cases branches with
  | nil => rfl
  | cons branch rest =>
    cases branch with
    | mk access test answer =>
      have ha := World.evalAnswer_untyped answer scope
      have hr := World.evalBranches_untyped rest scope direction
      simp only [Branch.untypedAll, Branch.untyped, World.evalBranches, ha, hr]

theorem World.evalAnswer_untyped (answer : Answer) (scope : Scope κ ν) :
    world.evalAnswer self call scope answer.untyped = world.evalAnswer self call scope answer := by
  cases answer with
  | undefined => rfl
  | null => rfl
  | value conversion => exact World.eval_untyped conversion scope
  | wrapped tag conversion =>
    have hc := World.eval_untyped conversion scope
    simp only [Answer.untyped, World.evalAnswer, hc]
end
end Untyped

variable (call) in
theorem assigned_eq (hp : own.Proper) {direction : Direction} {assignments : List Assignment}
    (ha : own.fieldList.mapM (Assignment.ofField context direction) = .ok assignments)
    (hn : (own.fieldList.map Field.label).Nodup) (instanceOf : Option κ)
    {properties : Properties κ ν} {made : Field → Value κ ν}
    (hf : ∀ field ∈ own.fieldList, ∀ type, field.type? = some type →
      Converts world (classOf own) call context direction type.isOptional type
        (properties.get field.label) (made field)) :
    world.assigned (classOf own) call (.object instanceOf properties)
        (assignments.map Assignment.untyped) =
      .ok (own.fieldList.map fun field => (field.label, made field)) := by
  let result : Properties κ ν := own.fieldList.map fun field => (field.label, made field)
  have hr : result.map Prod.fst = own.fieldList.map Field.label := List.map_map
  apply Properties.collect_eq (hr ▸ hn)
  rw [List.forall₂_map_left_iff, List.forall₂_map_right_iff]
  refine Traversal.forall₂_of_mapM ha fun field hm assignment hi => ?_
  obtain ⟨name, type, hname, htype, ht⟩ := (hp.of_mem hm).exists_eq
  rw [Assignment.ofField_eq hname htype] at hi
  obtain ⟨conversion, ho, rfl⟩ := Traversal.map_eq_ok_iff.1 hi
  obtain rfl := (hp.of_mem hm).label_eq hname
  refine ⟨rfl, fun _ => ?_⟩
  have hread : world.read (classOf own) (Scope.ofInput (.object instanceOf properties))
      (.field field.label) = .ok (properties.get field.label) := rfl
  obtain ⟨other, hc, hx⟩ := hf field hm type ht _ (.field field.label) 0 trivial hread
  rw [Int.natCast_zero, ho] at hc
  cases hc
  exact (world.eval_untyped call (classOf own) conversion _).trans hx

/-- If the methods of all classes carry the records in the fields of an instance, those of its own
class carry it. -/
theorem carried_of_fields (hw : world.Setting context records classOf) (hm : own ∈ records)
    {related : Record → Value κ ν → Value κ ν → Prop}
    (hc : ∀ own ∈ records, ∀ value restored, related own value restored →
      Carried call (classOf own) value restored)
    (hr : ∀ type ∈ own.fields.types, Ready context records type)
    (hn : (own.fieldList.map Field.label).Nodup) {properties : Properties κ ν}
    {back : Field → Value κ ν}
    (hf : ∀ field ∈ own.fieldList, ∃ type, field.type? = some type ∧
      world.FitsField context related type (properties.get field.label) (back field)) :
    Carried (fun own direction input => world.run own call direction input) (classOf own)
      (.object (some (classOf own)) properties)
      (.object (some (classOf own)) (own.fieldList.map fun field => (field.label, back field))) := by
  have hp := hw.records_proper own hm
  obtain ⟨declaration, ho, hd⟩ := hw.exists_declaration hm
  obtain ⟨declared, reads, writes, hdeclared, hreads, hwrites, rfl⟩ :=
    ClassDeclaration.of_ofRecord hp ho
  have hall : ∀ field ∈ own.fieldList, ∃ wire, ∀ type, field.type? = some type →
      Converts world (classOf own) call context .serialize type.isOptional type
        (properties.get field.label) wire ∧
      Converts world (classOf own) call context .deserialize type.isOptional type wire
        (back field) := by
    intro field hfield
    obtain ⟨type, ht, hfits⟩ := hf field hfield
    have hready := hr type (Record.mem_types.2 ⟨field, hfield, ht⟩)
    obtain ⟨wire, hx⟩ := exists_wire_of_fitsField hw hm hc hready hfits
    refine ⟨wire, fun other ho => ?_⟩
    rw [ht] at ho
    cases ho
    exact hx
  choose! wire hwire using hall
  let sent : Properties κ ν := own.fieldList.map fun field => (field.label, wire field)
  have hs : sent.map Prod.fst = own.fieldList.map Field.label := List.map_map
  have hget : ∀ field ∈ own.fieldList, sent.get field.label = wire field := fun field hfield =>
    Properties.get_of_mem (hs ▸ hn) (List.mem_map_of_mem hfield)
  have hwritten := assigned_eq call hp hwrites hn (some (classOf own))
    fun field hfield type ht => (hwire field hfield type ht).1
  have hread := assigned_eq call hp hreads hn none fun field hfield type ht =>
    hget field hfield ▸ (hwire field hfield type ht).2
  have hmade := construct_eq hp hdeclared (congrArg ClassDeclaration.properties hd) hn back
  refine ⟨⟨properties, rfl⟩, .object none sent, by simp, ?_, ?_⟩
  · change (world.assigned (classOf own) call _ _ >>= _) = _
    rw [hd, ClassDeclaration.untyped, hwritten]
    rfl
  · change (world.assigned (classOf own) call _ _ >>= _) = _
    rw [hd, ClassDeclaration.untyped, hread, Traversal.ok_bind, hmade]

/-- The methods of the classes carry all instances, of any depth. -/
theorem carried_of_instanceTo (hw : world.Setting context records classOf)
    (hr : ∀ own ∈ records, ∀ type ∈ own.fields.types, Ready context records type)
    (hn : ∀ own ∈ records, (own.fieldList.map Field.label).Nodup) (depth : Nat) :
    ∀ own ∈ records, ∀ value restored, world.InstanceTo context classOf depth own value restored →
      Carried (world.call depth) (classOf own) value restored := by
  induction depth with
  | zero =>
    intro own hm value restored hi
    cases hi
  | succ depth ih =>
    rintro own hm value restored ⟨properties, back, rfl, -, rfl, hf⟩
    exact carried_of_fields hw hm ih (hr own hm) (hn own hm) hf

end AvroBindings.Runtime
