import AvroBindings.Proofs.Code.Faults

/-! The branches of a union in both directions, row by row. Each alternative other than null has one
row: the same tag is tested on the wire and written to it, and the rows stand in the order of the
alternatives on both sides. -/

namespace AvroBindings

/-- An alternative with its tag, the test that recognises its values, and its two conversions. -/
structure UnionRow where
  alternative : Schema
  tag : Tag
  test : Test
  deserialized : Conversion
  serialized : Conversion

/-- The row is that of its alternative. On the wire the value stands under the tag. -/
structure UnionRow.Of (context : Context) (access : Access) (depth : Int) (row : UnionRow) :
    Prop where
  tag : Tag.ofSchema context row.alternative = .ok row.tag
  test : Test.ofSchema context row.alternative = .ok row.test
  deserialized : Conversion.deserialize context row.alternative (access.tagged row.tag) depth false =
    .ok row.deserialized
  serialized : Conversion.serialize context row.alternative access depth false = .ok row.serialized

def UnionRow.branch (access : Access) (row : UnionRow) : Direction → Branch
  | .deserialize => .mk (access.tagged row.tag) .isDefined (.value row.deserialized)
  | .serialize => .mk access row.test (.wrapped row.tag row.serialized)

def UnionRow.text (value : String) (row : UnionRow) : Direction → String × String
  | .deserialize =>
    (value ++ "[" ++ row.tag.text ++ "]" ++ " !== undefined", "return " ++ row.deserialized.render)
  | .serialize =>
    (row.test.text value, "return \x7b " ++ row.tag.key ++ ": " ++ row.serialized.render ++ " \x7d")

variable {context : Context} {access : Access} {depth : Int}

theorem Branch.exists_row {alternative : Schema} {deserializing serializing : Branch}
    (hd : Branch.ofAlternative .deserialize context access depth alternative = .ok deserializing)
    (hs : Branch.ofAlternative .serialize context access depth alternative = .ok serializing) :
    ∃ row : UnionRow, row.alternative = alternative ∧ row.Of context access depth ∧
      row.branch access .deserialize = deserializing ∧
      row.branch access .serialize = serializing := by
  obtain ⟨tag, ht, hd⟩ := Traversal.bind_eq_ok_iff.1 hd
  obtain ⟨deserialized, hc, hd⟩ := Traversal.bind_eq_ok_iff.1 hd
  obtain ⟨test, hw, hs⟩ := Traversal.bind_eq_ok_iff.1 hs
  obtain ⟨same, ht', hs⟩ := Traversal.bind_eq_ok_iff.1 hs
  obtain ⟨serialized, hc', hs⟩ := Traversal.bind_eq_ok_iff.1 hs
  -- both directions compute the tag from the alternative alone
  rw [ht, Except.ok.injEq] at ht'
  subst ht'
  cases hd
  cases hs
  exact ⟨⟨alternative, tag, test, deserialized, serialized⟩, rfl, ⟨ht, hw, hc, hc'⟩, rfl, rfl⟩

/-- All alternatives: the branches of both directions are those of the same rows. -/
theorem Branch.exists_rows {alternatives : List Schema} {deserializing serializing : List Branch}
    (hd : alternatives.mapM (Branch.ofAlternative .deserialize context access depth) =
      .ok deserializing)
    (hs : alternatives.mapM (Branch.ofAlternative .serialize context access depth) =
      .ok serializing) :
    ∃ rows : List UnionRow, rows.map UnionRow.alternative = alternatives ∧
      (∀ row ∈ rows, row.Of context access depth) ∧
      rows.map (·.branch access .deserialize) = deserializing ∧
      rows.map (·.branch access .serialize) = serializing := by
  replace hd := Traversal.mapM_eq_ok_iff.1 hd
  replace hs := Traversal.mapM_eq_ok_iff.1 hs
  induction hd generalizing serializing with
  | nil =>
    cases hs
    exact ⟨[], rfl, by simp, rfl, rfl⟩
  | cons hf _ ih =>
    cases hs with
    | cons hg hs =>
      obtain ⟨row, rfl, ho, rfl, rfl⟩ := exists_row hf hg
      obtain ⟨rows, rfl, hr, rfl, rfl⟩ := ih hs
      exact ⟨row :: rows, rfl, List.forall_mem_cons.2 ⟨ho, hr⟩, rfl, rfl⟩

theorem UnionRow.render_branch (row : UnionRow) (direction : Direction) :
    (row.branch access direction).render = row.text access.text direction := by
  cases direction <;> rfl

theorem Tag.key_cases {schema : Schema} {tag : Tag} (h : Tag.ofSchema context schema = .ok tag) :
    ((∃ record, context.Leads schema (.record record)) ∧ tag.key = "[" ++ tag.text ++ "]") ∨
      ((∀ record, ¬context.Leads schema (.record record)) ∧ tag.key = tag.text) := by
  cases forms h with
  | definition _ definition _ hl hd =>
    cases definition with
    | enum own =>
      obtain ⟨name, -, rfl⟩ := Traversal.map_eq_ok_iff.1 hd
      exact .inr ⟨fun record hr => (nomatch hl.unique hr), rfl⟩
    | record own =>
      obtain ⟨name, -, rfl⟩ := Traversal.map_eq_ok_iff.1 hd
      exact .inl ⟨⟨own, hl⟩, rfl⟩
  | primitive => exact .inr ⟨fun record => Context.not_leads rfl, rfl⟩
  | array => exact .inr ⟨fun record => Context.not_leads rfl, rfl⟩
  | map => exact .inr ⟨fun record => Context.not_leads rfl, rfl⟩

theorem Branch.exists_nulls (optional : Bool) (access : Access) (alternatives : List Schema) :
    ∃ nulls : List String,
      ((∃ wrapper, .primitive .null wrapper ∈ alternatives) ∧
          nulls = [access.text ++ if optional then " == null" else " === null"] ∨
        (∀ wrapper, .primitive .null wrapper ∉ alternatives) ∧ nulls = []) ∧
      ∀ direction, (Branch.nullBranches direction optional access alternatives).map Branch.render =
        nulls.map fun condition => (condition,
          if direction = .deserialize ∧ optional then "return undefined" else "return null") := by
  have hn : alternatives.any Schema.isNull ↔
      ∃ wrapper, .primitive .null wrapper ∈ alternatives := by
    simp only [List.any_eq_true, Schema.isNull_iff]
    constructor
    · rintro ⟨_, hm, wrapper, rfl⟩
      exact ⟨wrapper, hm⟩
    · rintro ⟨wrapper, hm⟩
      exact ⟨_, hm, wrapper, rfl⟩
  by_cases h : alternatives.any Schema.isNull
  · refine ⟨_, .inl ⟨hn.1 h, rfl⟩, fun direction => ?_⟩
    rw [nullBranches, if_pos h]
    cases direction <;> cases optional <;> rfl
  · refine ⟨[], .inr ⟨fun wrapper hm => h (hn.2 ⟨wrapper, hm⟩), rfl⟩, fun direction => ?_⟩
    rw [nullBranches, if_neg h]
    rfl

def Direction.thrown : Direction → String
  | deserialize => "\nthrow new TypeError('Unresolvable type')"
  | serialize => "\nthrow new TypeError('Unserializable type!')"

theorem Direction.throw_eq (direction : Direction) :
    "\nthrow new TypeError('" ++ direction.failure ++ "')" = direction.thrown := by
  cases direction <;> rfl

/-- The text of a union's dispatch in a direction: the null tests, then the rows, then a throw. -/
theorem Conversion.render_dispatch (direction : Direction) {nulls : List Branch}
    {tests : List (String × String)} (hn : nulls.map Branch.render = tests) (rows : List UnionRow) :
    (Conversion.dispatch direction (nulls ++ rows.map (·.branch access direction))).render =
      Layout.selfExecuting (Layout.conditional
        (tests ++ rows.map (·.text access.text direction)) ++
          direction.thrown) := by
  rw [render, Branch.renderAll_eq, List.map_append, hn, List.map_map]
  have hr : Branch.render ∘ (fun row : UnionRow => row.branch access direction) =
      fun row => row.text access.text direction :=
    funext fun row => row.render_branch direction
  rw [hr, Layout.dispatch, ← direction.throw_eq]
  simp only [String.append_assoc]

/-- Where a union of several alternatives is converted in both directions, the two dispatches have
the same rows. A null test comes first exactly if null is an alternative. Then each other alternative
has one row, in order: deserializing takes the value under its tag, and serializing answers an object
whose one key is the tag, computed exactly where the alternative is a record. Both throw last. -/
theorem union_rows {alternatives : List Schema} {optional : Bool}
    {deserialized serialized : Conversion} (hl : 2 ≤ alternatives.length)
    (hd : Conversion.deserialize context (.union alternatives) access depth optional =
      .ok deserialized)
    (hs : Conversion.serialize context (.union alternatives) access depth optional =
      .ok serialized) :
    ∃ (nulls : List String) (rows : List UnionRow),
      ((∃ wrapper, .primitive .null wrapper ∈ alternatives) ∧
          nulls = [access.text ++ if optional then " == null" else " === null"] ∨
        (∀ wrapper, .primitive .null wrapper ∉ alternatives) ∧ nulls = []) ∧
      rows.map UnionRow.alternative = alternatives.filter (!·.isNull) ∧
      (∀ row ∈ rows, row.Of context access depth ∧
        ((∃ record, context.Leads row.alternative (.record record)) ∧
            row.tag.key = "[" ++ row.tag.text ++ "]" ∨
          (∀ record, ¬context.Leads row.alternative (.record record)) ∧
            row.tag.key = row.tag.text)) ∧
      deserialized.render = Layout.selfExecuting (Layout.conditional
        (nulls.map (·, if optional then "return undefined" else "return null") ++
          rows.map (·.text access.text .deserialize)) ++
        "\nthrow new TypeError('Unresolvable type')") ∧
      serialized.render = Layout.selfExecuting (Layout.conditional
        (nulls.map (·, "return null") ++ rows.map (·.text access.text .serialize)) ++
        "\nthrow new TypeError('Unserializable type!')") := by
  have hne : alternatives.length ≠ 1 := by omega
  have hd := (Conversion.ofSchema_union .deserialize context access depth optional hne).symm.trans hd
  have hs := (Conversion.ofSchema_union .serialize context access depth optional hne).symm.trans hs
  obtain ⟨deserializing, hbd, hd⟩ := Traversal.bind_eq_ok_iff.1 hd
  obtain ⟨serializing, hbs, hs⟩ := Traversal.bind_eq_ok_iff.1 hs
  cases hd
  cases hs
  obtain ⟨rows, hr, ho, rfl, rfl⟩ := Branch.exists_rows hbd hbs
  obtain ⟨nulls, hn, ht⟩ := Branch.exists_nulls optional access alternatives
  refine ⟨nulls, rows, hn, hr, fun row hm => ⟨ho row hm, Tag.key_cases (ho row hm).tag⟩, ?_, ?_⟩
  · rw [Conversion.render_dispatch .deserialize (ht .deserialize)]
    simp [Direction.thrown]
  · rw [Conversion.render_dispatch .serialize (ht .serialize)]
    simp [Direction.thrown]

def Context.point : Context where
  registry := ⟨["geo.Point"], []⟩
  table := [(.str "geo.Point", .record (.mk [("type", .str "record"), ("name", .str "Point"),
    ("namespace", .str "geo")] .absent []))]

theorem union_rows_point :
    ∃ deserialized serialized,
      Conversion.deserialize .point
        (.union [.reference "Point", .primitive .null (some []), .primitive .string none])
        (.given "v") 0 true = .ok deserialized ∧
      Conversion.serialize .point
        (.union [.reference "Point", .primitive .null (some []), .primitive .string none])
        (.given "v") 0 true = .ok serialized ∧
      ∃ rows : List UnionRow, rows.map (·.tag.key) = ["[geo.Point.FQN]", "'string'"] ∧
        deserialized.render = Layout.selfExecuting (Layout.conditional
          (("v == null", "return undefined") :: rows.map (·.text "v" .deserialize)) ++
          "\nthrow new TypeError('Unresolvable type')") ∧
        serialized.render = Layout.selfExecuting (Layout.conditional
          (("v == null", "return null") :: rows.map (·.text "v" .serialize)) ++
          "\nthrow new TypeError('Unserializable type!')") := by
  refine ⟨_, _, rfl, rfl, ?_⟩
  obtain ⟨nulls, rows, hn, hr, ho, hd, hs⟩ := @union_rows .point (.given "v") 0
    [.reference "Point", .primitive .null (some []), .primitive .string none] true _ _
    (by decide) rfl rfl
  obtain ⟨-, rfl⟩ := hn.resolve_right fun hn => hn.1 (some []) (by simp)
  refine ⟨rows, ?_, hd, hs⟩
  have ht : rows.map (fun row => (.ok row.tag : Except Error Tag)) =
      (rows.map UnionRow.alternative).map (Tag.ofSchema .point) := by
    rw [List.map_map]
    exact List.map_congr_left fun row hm => (ho row hm).1.tag.symm
  rw [hr] at ht
  have hk := congrArg (List.map fun tag : Except Error Tag => tag.toOption.elim "" Tag.key) ht
  rw [List.map_map] at hk
  exact hk

end AvroBindings
