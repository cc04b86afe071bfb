import AvroBindings.Proofs.Code.Failures
import AvroBindings.Proofs.Code.Variables
import Mathlib.Data.List.TakeWhile

/-! Classes in the code of conversions and methods. The code names the class of a record wherever a
node that leads to the record is converted, in the scope of the arrays and maps around the node. A
variable there captures the name of the class if the name begins with it. -/

namespace AvroBindings

open Piece
open Occurrence (place)

/-- The name up to its first dot. -/
def leftmost (name : String) : String := String.ofList (name.toList.takeWhile (· ≠ '.'))

theorem leftmost_eq_self {name : String} (h : '.' ∉ name.toList) : leftmost name = name := by
  have ht : name.toList.takeWhile (· ≠ '.') = name.toList :=
    List.takeWhile_eq_self_iff.2 fun c hc => decide_eq_true fun he => h (he ▸ hc)
  rw [leftmost, ht, String.ofList_toList]

namespace Branch

theorem exists_of_ofAlternative {direction : Direction} {context : Context} {access : Access}
    {depth : Int} {alternative : Schema} {branch : Branch}
    (h : ofAlternative direction context access depth alternative = .ok branch)
    (around : List Construct) :
    ∃ inner conversion,
      Conversion.ofSchema direction context alternative inner depth false = .ok conversion ∧
      conversion.occurrences around ⊆ branch.occurrences around := by
  cases h using formed_cases with
  | deserialize tag conversion h ht hc =>
    refine ⟨_, conversion, hc, fun occurrence ho => ?_⟩
    simp [occurrences, Answer.occurrences, ho]
  | serialize test tag conversion h hs ht hc =>
    refine ⟨_, conversion, hc, fun occurrence ho => ?_⟩
    simp [occurrences, Answer.occurrences, ho]

end Branch

namespace Conversion

variable {direction : Direction} {context : Context} {type : Schema} {access : Access}
  {depth : Nat} {optional : Bool} {conversion : Conversion}

theorem exists_of_reached
    (h : ofSchema direction context type access depth optional = .ok conversion) {levels : Nat}
    {around : List Construct} {node : Schema} (hr : type.Reached depth levels around node) :
    node.isNull ∨ ∃ access optional inner,
      ofSchema direction context node access ((depth + levels : Nat) : Int) optional = .ok inner ∧
      inner.occurrences around ⊆ conversion.occurrences [] := by
  -- By the way to the node: the code of the node before holds that of the node.
  induction hr with
  | top => exact .inr ⟨access, optional, conversion, h, List.Subset.refl _⟩
  | @alternative levels around alternatives hr alternative ha ih =>
    obtain hn | ⟨access, optional, whole, hw, hs⟩ := ih
    · cases hn
    by_cases hl : alternatives.length = 1
    · obtain ⟨only, rfl⟩ := List.length_eq_one_iff.1 hl
      cases List.mem_singleton.1 ha
      rw [ofSchema_single] at hw
      exact .inr ⟨access, optional, whole, hw, hs⟩
    · rw [ofSchema_union direction context access _ optional hl] at hw
      obtain ⟨branches, hb, hw⟩ := Traversal.bind_eq_ok_iff.1 hw
      cases hw
      cases hn : alternative.isNull with
      | true => exact .inl rfl
      | false =>
        obtain ⟨branch, hm, hb⟩ := Traversal.ok_of_mapM hb (Schema.mem_nonNull.2 ⟨ha, hn⟩)
        obtain ⟨inner, own, ho, hi⟩ := Branch.exists_of_ofAlternative hb around
        have hm := List.mem_append_right
          (Branch.nullBranches direction optional access alternatives) hm
        exact .inr ⟨inner, false, own, ho, fun _ hc =>
          hs (occurrences_dispatch (Branch.occurrences_subset hm (hi hc)))⟩
  | items hr ih =>
    obtain hn | ⟨access, optional, whole, hw, hs⟩ := ih
    · cases hn
    rw [ofSchema_array] at hw
    obtain ⟨body, hb, rfl⟩ := Traversal.map_eq_ok_iff.1 hw
    rw [← Construct.callback_eq]
    exact .inr ⟨_, _, body, hb, fun _ hc => hs (occurrences_elements hc)⟩
  | values hr ih =>
    obtain hn | ⟨access, optional, whole, hw, hs⟩ := ih
    · cases hn
    rw [ofSchema_map] at hw
    obtain ⟨entry, -, hw⟩ := Traversal.bind_eq_ok_iff.1 hw
    obtain ⟨body, hb, hw⟩ := Traversal.bind_eq_ok_iff.1 hw
    cases hw
    rw [← Construct.functionAt_eq, ← Construct.loopAt_eq]
    exact .inr ⟨_, _, body, hb, fun _ hc => hs (occurrences_entries hc)⟩

theorem names_mem (h : ofSchema direction context type access depth optional = .ok conversion)
    {levels : Nat} {around : List Construct} {node : Schema} {className : String}
    (hr : type.Reached depth levels around node) (hn : node.Classed context className) :
    ⟨around, names className⟩ ∈ conversion.occurrences [] := by
  obtain ⟨own, hl, hq⟩ := hn
  obtain hn | ⟨inner, flag, whole, hw, hs⟩ := exists_of_reached h hr
  · obtain ⟨wrapper, rfl⟩ := Schema.isNull_iff.1 hn
    exact absurd hl (Context.not_leads rfl)
  · obtain ⟨name, hn, rfl⟩ := Traversal.map_eq_ok_iff.1 hq
    rw [hl.conversion_eq, ofDefinition_record, hn] at hw
    cases hw
    exact hs (by simp [occurrences, place])

/-- The classes that the code of a conversion names, and the constructs in whose scope it does. -/
theorem names_mem_iff (ha : ∀ className, names className ∉ access.pieces)
    (h : ofSchema direction context type access depth optional = .ok conversion)
    {around : List Construct} {className : String} :
    ⟨around, names className⟩ ∈ conversion.occurrences [] ↔
      ∃ levels node, type.Reached depth levels around node ∧ node.Classed context className := by
  constructor
  · intro ho
    have hs := sound direction context type depth access type 0 [] access optional conversion .top
      (access.uses_self _) h _ ho
    exact (hs.names className rfl).resolve_left (ha className)
  · rintro ⟨levels, node, hr, hn⟩
    exact names_mem h hr hn

end Conversion

def Occurrence.within (outer : Construct) (occurrence : Occurrence) : Occurrence :=
  ⟨occurrence.around ++ [outer], occurrence.piece⟩

theorem Occurrence.condensedAll_within (outer : Construct) (occurrences : List Occurrence) :
    condensedAll (occurrences.map (within outer)) = condensedAll occurrences := by
  unfold condensedAll
  rw [List.flatMap_map]
  rfl

theorem Occurrence.mem_map_within {outer : Construct} {occurrences : List Occurrence}
    {around : List Construct} {piece : Piece} :
    ⟨around, piece⟩ ∈ occurrences.map (within outer) ↔
      ∃ inner, around = inner ++ [outer] ∧ ⟨inner, piece⟩ ∈ occurrences := by
  rw [List.mem_map]
  constructor
  · rintro ⟨occurrence, ho, he⟩
    cases he
    exact ⟨occurrence.around, rfl, ho⟩
  · rintro ⟨inner, rfl, ho⟩
    exact ⟨_, ho, rfl⟩

def Assignment.occurrences (assignment : Assignment) : List Occurrence :=
  place [] [code assignment.name, code ": "] ++ assignment.value.occurrences [] ++
    place [] [code ","]

namespace Method

/-- The pieces in the scope of a method. A class that is used as a type is no place for a
variable. -/
def inner (method : Method) : List Occurrence :=
  let entries := method.assignments.flatMap Assignment.occurrences
  match method.direction with
  | .deserialize =>
    place [] [code "(", binds "input", code ": any): ", code method.className, code " ",
      code "\x7b", code "return new ", names method.className, code "(", code "\x7b"] ++
      entries ++ place [] [code "\x7d", code ")", code "\x7d"]
  | .serialize =>
    place [] [code "(", binds "input", code ": ", code method.className, code "): object ",
      code "\x7b", code "return ", code "\x7b"] ++
      entries ++ place [] [code "\x7d", code "\x7d"]

def occurrences (method : Method) : List Occurrence :=
  place [] [code "public static ", code method.direction.method] ++
    method.inner.map (Occurrence.within .method)

end Method

theorem Assignment.condensed_text (assignment : Assignment) :
    condensed assignment.text = Occurrence.condensedAll assignment.occurrences := by
  have hv := assignment.value.condensed_render []
  simp [text, occurrences, hv, Piece.text]

theorem Method.condensed_object (assignments : List Assignment) :
    condensed (object assignments) = condensed "\x7b" ++
      Occurrence.condensedAll (assignments.flatMap Assignment.occurrences) ++
        condensed "\x7d" := by
  have ho : (assignments.map Assignment.text).flatMap condensed =
      Occurrence.condensedAll (assignments.flatMap Assignment.occurrences) := by
    unfold Occurrence.condensedAll
    rw [List.flatMap_map, List.flatMap_assoc]
    exact List.flatMap_congr fun assignment _ => assignment.condensed_text
  unfold object
  split
  next he =>
    rw [List.isEmpty_iff.1 he]
    rfl
  next =>
    have hs : condensed "\n" = [] := by decide
    rw [Layout.condensed_braces, condensed_intercalate hs, ho]

theorem Method.condensed_render (method : Method) :
    condensed method.render = Occurrence.condensedAll method.occurrences := by
  obtain ⟨className, direction, assignments⟩ := method
  cases direction with
  | deserialize =>
    have hs : condensed "public static deserialize(input: any): " =
        condensed "public static " ++ condensed "deserialize" ++ condensed "(" ++
          condensed "input" ++ condensed ": any): " := by decide
    simp [render, occurrences, inner, Occurrence.condensedAll_within, condensed_object, hs,
      Piece.text, Direction.method]
  | serialize =>
    have hs : condensed "public static serialize(input: " =
        condensed "public static " ++ condensed "serialize" ++ condensed "(" ++
          condensed "input" ++ condensed ": " := by decide
    simp [render, occurrences, inner, Occurrence.condensedAll_within, condensed_object, hs,
      Piece.text, Direction.method]

theorem Assignment.exists_names_mem_iff {context : Context} {direction : Direction} {field : Field}
    (h : field.Proper) {assignment : Assignment}
    (ha : ofField context direction field = .ok assignment) :
    ∃ type, field.type? = some type ∧ ∀ around className,
      (⟨around, names className⟩ ∈ assignment.occurrences ↔
        ∃ levels node, type.Reached 0 levels around node ∧ node.Classed context className) := by
  obtain ⟨name, type, hn, ht, hs⟩ := h.exists_eq
  rw [ofField_eq hn ht] at ha
  obtain ⟨conversion, hc, rfl⟩ := Traversal.map_eq_ok_iff.1 ha
  have hp : ∀ className, names className ∉ (Access.field name).pieces := by simp [Access.pieces]
  have hc : Conversion.ofSchema direction context type (.field name) (0 : Nat) type.isOptional =
    .ok conversion := hc
  refine ⟨type, hs, fun around className => ?_⟩
  rw [← Conversion.names_mem_iff hp hc]
  simp [occurrences, place]

/-- A piece names a class whose name begins with a variable in scope. -/
def Occurrence.Captures (occurrence : Occurrence) : Prop :=
  ∃ className, occurrence.piece = .names className ∧ leftmost className ∈ occurrence.scope

namespace Record

variable {context : Context} {record : Record} {direction : Direction}
  {assignments : List Assignment} {around : List Construct} {className : String}

/-- A class is named for a field, in the scope of constructs that go through its value. -/
def Names (context : Context) (record : Record) (around : List Construct) (className : String) :
    Prop :=
  ∃ type ∈ record.fields.types, ∃ levels node, type.Reached 0 levels around node ∧
    node.Classed context className

theorem names_mem_entries (h : record.Proper)
    (ha : record.fieldList.mapM (Assignment.ofField context direction) = .ok assignments) :
    ⟨around, names className⟩ ∈ assignments.flatMap Assignment.occurrences ↔
      record.Names context around className := by
  constructor
  · intro hm
    obtain ⟨assignment, hm, ho⟩ := List.mem_flatMap.1 hm
    obtain ⟨field, hf, hc⟩ := Traversal.of_mem_mapM ha hm
    obtain ⟨type, hs, hi⟩ := Assignment.exists_names_mem_iff (h.of_mem hf) hc
    exact ⟨type, mem_types.2 ⟨field, hf, hs⟩, (hi around className).1 ho⟩
  · rintro ⟨type, ht, hn⟩
    obtain ⟨field, hf, hs⟩ := mem_types.1 ht
    obtain ⟨assignment, hm, hc⟩ := Traversal.ok_of_mapM ha hf
    obtain ⟨other, ho, hi⟩ := Assignment.exists_names_mem_iff (h.of_mem hf) hc
    cases hs.symm.trans ho
    exact List.mem_flatMap.2 ⟨assignment, hm, (hi around className).2 hn⟩

theorem names_mem_inner {method : Method} :
    ⟨around, names className⟩ ∈ method.inner ↔
      (method.direction = .deserialize ∧ around = [] ∧ className = method.className) ∨
        ⟨around, names className⟩ ∈ method.assignments.flatMap Assignment.occurrences := by
  obtain ⟨name, direction, assignments⟩ := method
  cases direction <;> simp [Method.inner, place]

theorem names_mem_method (h : record.Proper)
    (ha : record.fieldList.mapM (Assignment.ofField context direction) = .ok assignments)
    {name : String} :
    ⟨around, names className⟩ ∈ (Method.mk name direction assignments).occurrences ↔
      (direction = .deserialize ∧ around = [.method] ∧ className = name) ∨
        ∃ inner, around = inner ++ [.method] ∧ record.Names context inner className := by
  have hs : ⟨around, names className⟩ ∉
      place [] [code "public static ", code direction.method] := by simp [place]
  rw [Method.occurrences, List.mem_append, or_iff_right hs, Occurrence.mem_map_within]
  simp only [names_mem_inner, names_mem_entries h ha]
  constructor
  · rintro ⟨inner, rfl, ⟨hd, rfl, he⟩ | hn⟩
    · exact .inl ⟨hd, rfl, he⟩
    · exact .inr ⟨inner, rfl, hn⟩
  · rintro (⟨hd, rfl, he⟩ | ⟨inner, rfl, hn⟩)
    · exact ⟨[], rfl, .inl ⟨hd, rfl, he⟩⟩
    · exact ⟨inner, rfl, .inr hn⟩

/-- A class that is named begins with a variable: with what the methods are given, or with one of
the arrays and maps around. -/
def Hides (context : Context) (record : Record) : Prop :=
  ∃ around className, record.Names context around className ∧
    leftmost className ∈ "input" :: around.flatMap Construct.names

theorem method_captures_iff (h : record.Proper)
    (ha : record.fieldList.mapM (Assignment.ofField context direction) = .ok assignments)
    {name : String} (hd : '.' ∉ name.toList) :
    (∃ occurrence ∈ (Method.mk name direction assignments).occurrences, occurrence.Captures) ↔
      (direction = .deserialize ∧ name = "input") ∨ record.Hides context := by
  have hm : ∀ inner, (inner ++ [Construct.method]).flatMap Construct.names =
      inner.flatMap Construct.names ++ ["input"] := fun inner => List.flatMap_append
  constructor
  · rintro ⟨⟨around, piece⟩, ho, className, rfl : piece = _, hs⟩
    obtain ⟨hr, rfl, rfl⟩ | ⟨inner, rfl, hn⟩ := (names_mem_method h ha).1 ho
    · rw [leftmost_eq_self hd] at hs
      exact .inl ⟨hr, List.mem_singleton.1 hs⟩
    · rw [Occurrence.scope, hm, List.mem_append, List.mem_singleton] at hs
      exact .inr ⟨inner, className, hn, List.mem_cons.2 hs.symm⟩
  · rintro (⟨rfl, rfl⟩ | ⟨inner, className, hn, hs⟩)
    · refine ⟨_, (names_mem_method h ha).2 (.inl ⟨rfl, rfl, rfl⟩), _, rfl, ?_⟩
      rw [leftmost_eq_self hd]
      exact List.mem_singleton_self _
    · refine ⟨_, (names_mem_method h ha).2 (.inr ⟨inner, rfl, hn⟩), _, rfl, ?_⟩
      rw [Occurrence.scope, hm, List.mem_append, List.mem_singleton]
      exact (List.mem_cons.1 hs).symm

end Record

def Declaration.methods : Declaration → List Method
  | .classOf own => [own.deserializer, own.serializer]
  | _ => []

theorem Declaration.captures_iff {context : Context} {record : Record} (h : record.Proper)
    (hd : '.' ∉ record.attributes.shortName.toList) {own : Declaration}
    (ho : classOfRecord context record = .ok own) :
    (∃ method ∈ own.methods, ∃ occurrence ∈ method.occurrences, occurrence.Captures) ↔
      record.attributes.shortName = "input" ∨ record.Hides context := by
  obtain ⟨declaration, hk, rfl⟩ := Traversal.map_eq_ok_iff.1 ho
  obtain ⟨properties, reads, writes, -, hr, hw, rfl⟩ := ClassDeclaration.of_ofRecord h hk
  simp only [methods, List.mem_cons, List.not_mem_nil, or_false, exists_eq_or_imp,
    exists_eq_left, Record.method_captures_iff h hr hd, Record.method_captures_iff h hw hd]
  simp

end AvroBindings
