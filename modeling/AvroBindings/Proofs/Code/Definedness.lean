import AvroBindings.Proofs.Code.Failures
import AvroBindings.Proofs.Inventory

/-! Where types and conversions are defined. The conversions of both directions are defined on the
same schemas, whatever value they convert: on those that have a type expression, and in which no
union stands directly in another one. -/

namespace AvroBindings

namespace Schema

/-- A union of at least two alternatives is met, and one of them is a union itself. -/
def Nests (schema : Schema) : Prop :=
  ∃ alternatives, union alternatives ∈ schema.constituents ∧ 2 ≤ alternatives.length ∧
    ∃ alternative ∈ alternatives, alternative.isUnion

variable {context : Context} {schema : Schema}

/-- What only classes cannot have is a union that stands directly in another one. -/
theorem exists_faults_iff_nests :
    (∃ e, schema.Faults context true e) ↔ (∃ e, schema.Faults context false e) ∨ schema.Nests := by
  constructor
  · rintro ⟨e, node, hn, hf⟩
    cases node with
    | union alternatives =>
      obtain ⟨-, hl, alternative, ha, hu, -⟩ := hf
      have hp := List.length_pos_of_mem ha
      exact .inr ⟨alternatives, hn, by omega, alternative, ha, hu⟩
    | _ => exact .inl ⟨e, _, hn, hf⟩
  · rintro (⟨e, hf⟩ | ⟨alternatives, hn, hl, alternative, ha, hu⟩)
    · exact ⟨e, hf.mono⟩
    · exact ⟨_, _, hn, rfl, by omega, alternative, ha, hu, rfl⟩

end Schema

theorem Context.legible_of_table {context : Context}
    (h : ∀ entry ∈ context.table, entry.2.Legible) : context.Legible := by
  intro name definition hr
  unfold Context.resolve at hr
  obtain ⟨found, hf, hr⟩ := Traversal.bind_eq_ok_iff.1 hr
  obtain ⟨full, -, rfl⟩ := Traversal.map_eq_ok_iff.1 hf
  cases full with
  | none => cases hr
  | some full =>
    cases ht : context.table.find? (.str full) with
    | none =>
      simp only [Option.map_some, ht] at hr
      cases hr
    | some own =>
      simp only [Option.map_some, ht] at hr
      cases hr
      obtain ⟨key, hm, -⟩ := Table.mem_of_find? ht
      exact h _ hm

namespace Conversion

variable {context : Context} {schema : Schema}

/-- A conversion is defined where the type is, unless unions stand directly in each other. -/
theorem exists_ofSchema_iff (hc : context.Legible) (h : schema.Readable) (direction : Direction)
    (access : Access) (depth : Int) (optional : Bool) :
    (∃ conversion, ofSchema direction context schema access depth optional = .ok conversion) ↔
      (∃ type, TypeExpr.ofSchema context schema = .ok type) ∧ ¬schema.Nests := by
  have hf := @Schema.exists_faults_iff_nests context schema
  rw [(fails hc direction h access depth optional).exists_ok_iff,
    (TypeExpr.failsBy_ofSchema hc h).exists_ok_iff, ← not_exists, ← not_exists, hf, not_or]

/-- Over legible definitions, a readable schema is serialized exactly if it is deserialized, and
both exactly if it has a type and no union of at least two alternatives in it, met without following
references or entering fields, has a union among its alternatives. Neither the value nor the depth
matters. -/
theorem defined_together (hc : ∀ entry ∈ context.table, entry.2.Legible) (h : schema.Readable)
    (access : Access) (depth : Int) (optional : Bool) :
    ((∃ conversion, serialize context schema access depth optional = .ok conversion) ↔
      ∃ conversion, deserialize context schema access depth optional = .ok conversion) ∧
    ((∃ conversion, deserialize context schema access depth optional = .ok conversion) ↔
      (∃ type, TypeExpr.ofSchema context schema = .ok type) ∧
        ∀ alternatives, .union alternatives ∈ schema.constituents → 2 ≤ alternatives.length →
          ∀ alternative ∈ alternatives, ¬alternative.isUnion) := by
  have hl := Context.legible_of_table hc
  have hs : (∃ conversion, serialize context schema access depth optional = .ok conversion) ↔ _ :=
    exists_ofSchema_iff hl h .serialize access depth optional
  have hd : (∃ conversion, deserialize context schema access depth optional = .ok conversion) ↔ _ :=
    exists_ofSchema_iff hl h .deserialize access depth optional
  refine ⟨hs.trans hd.symm, hd.trans ?_⟩
  unfold Schema.Nests
  push Not
  rfl

def points : Context where
  registry := ⟨["3.Point"], []⟩
  table := [(.str "3.Point", .record (.mk [("type", .str "record"), ("name", .str "Point"),
    ("namespace", .int 3)] (.other .null) []))]

def pointsOr (other : Schema) : Schema :=
  .array [("type", .str "array")]
    (some (.union [.reference "Point", .primitive .null none, other])) []

theorem constituents_pointsOr (other : Schema) :
    (pointsOr other).constituents = pointsOr other ::
      .union [.reference "Point", .primitive .null none, other] :: .reference "Point" ::
      .primitive .null none :: other.constituents := by
  have hp := @Schema.constituents_leaf (.reference "Point") rfl
  have hn := @Schema.constituents_leaf (.primitive .null none) rfl
  rw [Schema.constituents_eq, pointsOr]
  simp only [Schema.operands_array, Option.toList, List.flatMap_cons, List.flatMap_nil]
  rw [Schema.constituents_eq]
  simp [hp, hn]

theorem readable_pointsOr {other : Schema} (h : other.Readable) : (pointsOr other).Readable := by
  intro node hn
  simp only [constituents_pointsOr, List.mem_cons] at hn
  obtain rfl | rfl | rfl | rfl | hn := hn
  · exact rfl
  · trivial
  · trivial
  · trivial
  · exact h node hn

theorem defined_together_points :
    (∀ entry ∈ points.table, entry.2.Legible) ∧
    (∃ conversion, serialize points (pointsOr (.primitive .string none)) (.given "v") 3 false =
      .ok conversion) ∧
    (∃ type, TypeExpr.ofSchema points (pointsOr (.union [.reference "Point"])) = .ok type) ∧
    ¬∃ conversion, serialize points (pointsOr (.union [.reference "Point"])) (.given "v") 3 false =
      .ok conversion := by
  have hc : ∀ entry ∈ points.table, entry.2.Legible := by
    simp only [points, List.forall_mem_singleton]
    exact ⟨"Point", rfl⟩
  have hs : (pointsOr (.primitive .string none)).Readable :=
    readable_pointsOr (Schema.wellFormed_primitive .string none).readable
  have hu : (pointsOr (.union [.reference "Point"])).Readable :=
    readable_pointsOr (Schema.WellFormed.readable
      (Schema.wellFormed_union.2 (by simp [Schema.wellFormed_reference])))
  obtain ⟨hse, hsd⟩ := defined_together hc hs (.given "v") 3 false
  obtain ⟨hue, hud⟩ := defined_together hc hu (.given "v") 3 false
  refine ⟨hc, hse.2 (hsd.2 ⟨⟨_, rfl⟩, ?_⟩), ⟨_, rfl⟩, fun h => ?_⟩
  · intro alternatives hm
    rw [constituents_pointsOr, Schema.constituents_leaf rfl] at hm
    simp only [pointsOr, List.mem_cons, reduceCtorEq, false_or, List.not_mem_nil, or_false,
      Schema.union.injEq] at hm
    subst hm
    simp [Schema.isUnion]
  · have hm : .union [.reference "Point", .primitive .null none, .union [.reference "Point"]] ∈
        (pointsOr (.union [.reference "Point"])).constituents := by
      rw [constituents_pointsOr]
      simp
    exact (hud.1 (hue.1 h)).2 _ hm (by decide) (.union [.reference "Point"]) (by simp) rfl

end Conversion

end AvroBindings
