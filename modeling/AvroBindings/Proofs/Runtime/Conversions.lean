import AvroBindings.Proofs.Code.Failures
import AvroBindings.Proofs.Runtime.Conformance

/-! What generated conversions make of values. Conversions of arrays and maps do to every element
and every entry what the conversion of the element or the entry does, and those of a definition
leave a value alone or call the class of the record. -/

namespace AvroBindings.Runtime

variable {κ ν : Type}

/-- What code for a type relies on. It is well-formed and free of faults, the records it leads to
have classes, and alternatives of one name in a union have the same conversions. -/
structure Ready (context : Context) (records : List Record) (schema : Schema) : Prop where
  wellFormed : schema.WellFormed
  faultless : ∀ e, ¬schema.Faults context true e
  leads : ∀ node ∈ schema.constituents, ∀ own, context.Leads node (.record own) → own ∈ records
  coherent : ∀ alternatives, .union alternatives ∈ schema.constituents →
    Schema.Coherent context alternatives

namespace Ready

variable {context : Context} {records : List Record} {schema : Schema}

theorem operand (h : Ready context records schema) {operand : Schema}
    (ho : operand ∈ schema.operands) : Ready context records operand where
  wellFormed := h.wellFormed.child (Schema.operands_subset_children schema ho)
  faultless e he := h.faultless e (Schema.faults_iff.2 (.inr ⟨operand, ho, he⟩))
  leads node hn := h.leads node (Schema.constituents_of_operand ho hn)
  coherent alternatives ha := h.coherent alternatives (Schema.constituents_of_operand ho ha)

theorem exists_ofSchema (h : Ready context records schema) (hc : context.Proper)
    (direction : Direction) (access : Access) (depth : Int) (optional : Bool) :
    ∃ conversion,
      Conversion.ofSchema direction context schema access depth optional = .ok conversion :=
  have hf := Conversion.fails hc.legible direction h.wellFormed.readable access depth optional
  hf.exists_ok_iff.2 h.faultless

theorem exists_entriesType {before after : Attributes} {values : Schema}
    (h : Ready context records (.map before (some values) after)) (hc : context.Proper)
    (direction : Direction) :
    ∃ type, Conversion.entriesType context values direction = .ok type := by
  have hv : values.WellFormed := Schema.wellFormed_map.1 h.wellFormed
  obtain ⟨faults, ht, hf⟩ := Conversion.failsBy_entriesType hc.legible hv.readable direction
  exact ht.exists_ok_iff.2 fun e he => h.faultless e (Schema.faults_map.2 (hf e he))

end Ready

section Conversions

variable (world : World κ ν) (own : κ) [DecidableEq κ]
  (call : κ → Direction → Value κ ν → Except Failure (Value κ ν)) (context : Context)

/-- The conversion of a schema makes one value of another, wherever it stands. -/
def Converts (direction : Direction) (optional : Bool) (schema : Schema)
    (value result : Value κ ν) : Prop :=
  ∀ (scope : Scope κ ν) (access : Access) (depth : Nat), access.Below depth →
    world.read own scope access = .ok value →
    ∃ conversion,
      Conversion.ofSchema direction context schema access depth optional = .ok conversion ∧
      world.eval own call scope conversion = .ok result

variable {world own call context} {direction : Direction} {optional : Bool}

theorem eval_call {records : List Record} {classOf : Record → κ}
    (hw : world.Realizes context records classOf) {self other : Record} (hs : self ∈ records)
    (hm : other ∈ records) {scope : Scope κ ν} {access : Access} {value : Value κ ν}
    (hr : world.read (classOf self) scope access = .ok value) :
    world.eval (classOf self) call scope
      (.call ((Definition.record other).className context.options) direction access) =
      call (classOf other) direction value := by
  unfold World.eval
  rw [hr, Traversal.ok_bind, hw.named self hs other hm]

theorem converts_same {schema : Schema} {value : Value κ ν}
    (h : ∀ access depth, Conversion.ofSchema direction context schema access depth optional =
      .ok (.same access)) :
    Converts world own call context direction optional schema value value :=
  fun _ access depth _ hr => ⟨.same access, h access depth, hr⟩

theorem Converts.single {only : Schema} {value result : Value κ ν}
    (h : Converts world own call context direction optional only value result) :
    Converts world own call context direction optional (.union [only]) value result := by
  intro scope access depth hb hr
  rw [Conversion.ofSchema_single]
  exact h scope access depth hb hr

theorem converts_array {α : Type} {before after : Attributes} {items : Schema} {list : List α}
    {given made : α → Value κ ν}
    (h : ∀ item ∈ list,
      Converts world own call context direction false items (given item) (made item))
    (he : ∀ access depth, ∃ conversion,
      Conversion.ofSchema direction context items access depth false = .ok conversion) :
    Converts world own call context direction optional (.array before (some items) after)
      (.array (list.map given)) (.array (list.map made)) := by
  intro scope access depth hb hr
  let element : Binding := ⟨.element, depth⟩
  obtain ⟨body, hbody⟩ := he (.bound element) ((depth : Int) + 1)
  have hm : (list.map given).mapM
      (fun item => world.eval own call (scope.bind element item) body) = .ok (list.map made) := by
    rw [Traversal.mapM_eq_ok_iff, List.forall₂_map_left_iff, List.forall₂_map_right_iff,
      List.forall₂_same]
    intro item hi
    have hv := world.read_bound own scope element (given item)
    obtain ⟨conversion, hc, hx⟩ :=
      h item hi _ (.bound element) (depth + 1) (Access.below_bound .element depth) hv
    rw [Int.natCast_succ, hbody] at hc
    cases hc
    exact hx
  refine ⟨.elements access element items.isMultiUnion body, ?_, ?_⟩
  · rw [Conversion.ofSchema_array, hbody]
    rfl
  · unfold World.eval
    rw [hr, Traversal.ok_bind, Value.elements, Traversal.ok_bind, hm]
    rfl

theorem converts_map {α : Type} {before after : Attributes} {values : Schema} {list : List α}
    {key : α → String} {given made : α → Value κ ν} (hn : (list.map key).Nodup)
    (h : ∀ entry ∈ list,
      Converts world own call context direction false values (given entry) (made entry))
    (ht : ∃ type, Conversion.entriesType context values direction = .ok type)
    (he : ∀ access depth, ∃ conversion,
      Conversion.ofSchema direction context values access depth false = .ok conversion) :
    Converts world own call context direction optional (.map before (some values) after)
      (.object none (list.map fun entry => (key entry, given entry)))
      (.object none (list.map fun entry => (key entry, made entry))) := by
  intro scope access depth hb hr
  obtain ⟨type, ht⟩ := ht
  obtain ⟨body, hbody⟩ := he (.bound ⟨.mapValue, depth⟩) ((depth : Int) + 1)
  let old : Properties κ ν := list.map fun entry => (key entry, given entry)
  let new : Properties κ ν := list.map fun entry => (key entry, made entry)
  have ho : old.map Prod.fst = list.map key := List.map_map
  have hm : new.map Prod.fst = list.map key := List.map_map
  let inner : Scope κ ν := scope.bind ⟨.keys, depth⟩ (.array ((old.map Prod.fst).map .string))
  -- Whatever the loop has put out so far, it reads the object and converts the entry of its key.
  have hloop : List.Forall₂ (fun key property => id key = property.1 ∧
      ∀ output : Properties κ ν, (do
        let scope := (inner.bind ⟨.output, depth⟩ (.object none output)).bind ⟨.mapKey, depth⟩
          (.string key)
        let value ← (← world.read own scope access).property key
        world.eval own call (scope.bind ⟨.mapValue, depth⟩ value) body) = .ok property.2)
      (old.map Prod.fst) new := by
    rw [ho, List.forall₂_map_left_iff, List.forall₂_map_right_iff, List.forall₂_same]
    intro entry hentry
    refine ⟨rfl, fun output => ?_⟩
    have hget : Properties.get (key entry) old = given entry :=
      Properties.get_of_mem (ho ▸ hn) (List.mem_map_of_mem hentry)
    let outer := (inner.bind ⟨.output, depth⟩ (.object none output)).bind ⟨.mapKey, depth⟩
      (.string (key entry))
    have hread : world.read own outer access = .ok (.object none old) := by
      rw [world.read_bind own hb, world.read_bind own hb, world.read_bind own hb, hr]
    obtain ⟨conversion, hc, hi⟩ := h entry hentry _ (.bound ⟨.mapValue, depth⟩) (depth + 1)
      (Access.below_bound .mapValue depth)
      (world.read_bound own outer ⟨.mapValue, depth⟩ (given entry))
    rw [Int.natCast_succ, hbody] at hc
    cases hc
    change (world.read own outer access >>= fun value => value.property (key entry) >>=
      fun value => world.eval own call (outer.bind ⟨.mapValue, depth⟩ value) body) = _
    rw [hread, Traversal.ok_bind, Value.property, hget, Traversal.ok_bind, hi]
  refine ⟨.entries access depth type body, ?_, ?_⟩
  · rw [Conversion.ofSchema_map, ht, Traversal.ok_bind, hbody]
    rfl
  · have hcollect := Properties.collect_eq (hm ▸ hn) hloop
    unfold World.eval
    rw [hr, Traversal.ok_bind, Value.keys, Traversal.ok_bind]
    exact Traversal.bind_eq_ok_iff.2 ⟨new, hcollect, rfl⟩

end Conversions

end AvroBindings.Runtime
