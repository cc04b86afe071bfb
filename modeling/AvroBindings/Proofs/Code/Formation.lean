import AvroBindings.Proofs.Code.Resolution

/-! How generated code comes about. Types, tags, tests and conversions are put together from those
of the nodes below, and a node that stands for a definition gets what the definition has. What holds
of all code that is generated is proved by induction on the way it came about, with one case for
each kind of code, whatever schemas it may stand for. -/

namespace AvroBindings

variable {context : Context}

namespace TypeExpr

theorem ofSchemas_eq (context : Context) (schemas : List Schema) :
    ofSchemas context schemas = schemas.mapM (ofSchema context) := by
  induction schemas with
  | nil => rfl
  | cons schema rest ih =>
    rw [ofSchemas, ih, List.mapM_cons]

theorem ofSchema_union (alternatives : List Schema) :
    ofSchema context (.union alternatives) =
      alternatives.mapM (ofSchema context) >>= unionOf := by
  rw [ofSchema, ofSchemas_eq]

theorem eq_union_of_unionOf {types : List TypeExpr} {type : TypeExpr}
    (h : unionOf types = .ok type) : type = union types := by
  unfold unionOf at h
  split at h <;> cases h
  rfl

/-- Induction on the way a type expression came about. -/
@[elab_as_elim]
theorem formed_induction
    {motive : ∀ schema type, ofSchema context schema = .ok type → Prop}
    (primitive : ∀ name wrapper h, motive (.primitive name wrapper) (.builtin name.builtin) h)
    (definition : ∀ node definition type h, context.Leads node definition →
      ofDefinition context.options definition = .ok type → motive node type h)
    (union : ∀ alternatives types h, alternatives.mapM (ofSchema context) = .ok types →
      (∀ alternative ∈ alternatives, ∀ type h, motive alternative type h) →
      motive (.union alternatives) (.union types) h)
    (array : ∀ before items after item h hi, motive items item hi →
      motive (.array before (some items) after) (.array item) h)
    (map : ∀ before values after value h hv, motive values value hv →
      motive (.map before (some values) after) (.index value) h)
    {schema : Schema} {type : TypeExpr} (h : ofSchema context schema = .ok type) :
    motive schema type h := by
  induction schema using Schema.byChildren generalizing type with
  | step schema ih =>
    have hd : ∀ own, context.Leads schema own → motive schema type h :=
      fun own hl => definition schema own type h hl (hl.type_eq ▸ h)
    cases schema with
    | primitive name wrapper =>
      cases h
      exact primitive name wrapper rfl
    | reference name =>
      obtain ⟨own, hr, -⟩ := Traversal.bind_eq_ok_iff.1 h
      exact hd own (.reference name own hr)
    | enum own => exact hd (.enum own) (.inline (.enum own))
    | record own => exact hd (.record own) (.inline (.record own))
    | union alternatives =>
      have hu := h
      rw [ofSchema_union] at hu
      obtain ⟨types, hs, hu⟩ := Traversal.bind_eq_ok_iff.1 hu
      obtain rfl := eq_union_of_unionOf hu
      exact union alternatives types h hs fun alternative ha type ht => ih alternative ha ht
    | array before items after =>
      cases items with
      | none => cases h
      | some items =>
        obtain ⟨item, hi, ho⟩ := Traversal.bind_eq_ok_iff.1 h
        cases ho
        exact array before items after item h hi (ih items (by simp) hi)
    | map before values after =>
      cases values with
      | none => cases h
      | some values =>
        obtain ⟨value, hv, ho⟩ := Traversal.bind_eq_ok_iff.1 h
        cases ho
        exact map before values after value h hv (ih values (by simp) hv)
    | unknown value => cases h

end TypeExpr

@[elab_as_elim]
theorem Branch.formed_cases {access : Access} {depth : Int} {alternative : Schema}
    {motive : ∀ direction branch,
      ofAlternative direction context access depth alternative = .ok branch → Prop}
    (deserialize : ∀ tag conversion h, Tag.ofSchema context alternative = .ok tag →
      Conversion.ofSchema .deserialize context alternative (access.tagged tag) depth false =
        .ok conversion →
      motive .deserialize (.mk (access.tagged tag) .isDefined (.value conversion)) h)
    (serialize : ∀ test tag conversion h, Test.ofSchema context alternative = .ok test →
      Tag.ofSchema context alternative = .ok tag →
      Conversion.ofSchema .serialize context alternative access depth false = .ok conversion →
      motive .serialize (.mk access test (.wrapped tag conversion)) h)
    {direction : Direction} {branch : Branch}
    (h : ofAlternative direction context access depth alternative = .ok branch) :
    motive direction branch h := by
  have hb := h
  cases direction with
  | deserialize =>
    obtain ⟨tag, ht, hb⟩ := Traversal.bind_eq_ok_iff.1 hb
    obtain ⟨conversion, hc, hb⟩ := Traversal.bind_eq_ok_iff.1 hb
    cases hb
    exact deserialize tag conversion h ht hc
  | serialize =>
    obtain ⟨test, hs, hb⟩ := Traversal.bind_eq_ok_iff.1 hb
    obtain ⟨tag, ht, hb⟩ := Traversal.bind_eq_ok_iff.1 hb
    obtain ⟨conversion, hc, hb⟩ := Traversal.bind_eq_ok_iff.1 hb
    cases hb
    exact serialize test tag conversion h hs ht hc

namespace Conversion

variable {direction : Direction}

/-- Induction on the way a conversion came about. What the branches of a union access depends on the
direction, so that nothing is assumed of how its alternatives are accessed. -/
@[elab_as_elim]
theorem formed_induction
    {motive : ∀ schema access depth optional conversion,
      ofSchema direction context schema access depth optional = .ok conversion → Prop}
    (primitive : ∀ name wrapper access depth optional h,
      motive (.primitive name wrapper) access depth optional (.same access) h)
    (definition : ∀ node definition access depth optional conversion h,
      context.Leads node definition →
      ofDefinition direction context.options access definition = .ok conversion →
      motive node access depth optional conversion h)
    (array : ∀ before items after access depth optional body h hb,
      motive items (.bound ⟨.element, depth⟩) (depth + 1) false body hb →
      motive (.array before (some items) after) access depth optional
        (.elements access ⟨.element, depth⟩ items.isMultiUnion body) h)
    (map : ∀ before values after access depth optional type body h hb,
      entriesType context values direction = .ok type →
      motive values (.bound ⟨.mapValue, depth⟩) (depth + 1) false body hb →
      motive (.map before (some values) after) access depth optional
        (.entries access depth type body) h)
    (single : ∀ only access depth optional conversion h ho,
      motive only access depth optional conversion ho →
      motive (.union [only]) access depth optional conversion h)
    (union : ∀ alternatives access depth optional branches h, alternatives.length ≠ 1 →
      (Schema.nonNull alternatives).mapM
        (Branch.ofAlternative direction context access depth) = .ok branches →
      (∀ alternative ∈ alternatives, ∀ access depth optional conversion h,
        motive alternative access depth optional conversion h) →
      motive (.union alternatives) access depth optional (.dispatch direction
        (Branch.nullBranches direction optional access alternatives ++ branches)) h)
    {schema : Schema} {access : Access} {depth : Int} {optional : Bool} {conversion : Conversion}
    (h : ofSchema direction context schema access depth optional = .ok conversion) :
    motive schema access depth optional conversion h := by
  induction schema using Schema.byChildren generalizing access depth optional conversion with
  | step schema ih =>
    have hd : ∀ own, context.Leads schema own →
        motive schema access depth optional conversion h := fun own hl =>
      definition schema own access depth optional conversion h hl
        (hl.conversion_eq direction access depth optional ▸ h)
    have ho := h
    cases schema with
    | primitive name wrapper =>
      rw [ofSchema_primitive] at ho
      cases ho
      exact primitive name wrapper access depth optional h
    | reference name =>
      rw [ofSchema_reference] at ho
      obtain ⟨own, hr, -⟩ := Traversal.bind_eq_ok_iff.1 ho
      exact hd own (.reference name own hr)
    | enum own => exact hd (.enum own) (.inline (.enum own))
    | record own => exact hd (.record own) (.inline (.record own))
    | array before items after =>
      cases items with
      | none => cases direction <;> cases h
      | some items =>
        rw [ofSchema_array] at ho
        obtain ⟨body, hb, rfl⟩ := Traversal.map_eq_ok_iff.1 ho
        exact array before items after access depth optional body h hb (ih items (by simp) hb)
    | map before values after =>
      cases values with
      | none => cases direction <;> cases h
      | some values =>
        rw [ofSchema_map] at ho
        obtain ⟨type, ht, ho⟩ := Traversal.bind_eq_ok_iff.1 ho
        obtain ⟨body, hb, ho⟩ := Traversal.bind_eq_ok_iff.1 ho
        cases ho
        exact map before values after access depth optional type body h hb ht
          (ih values (by simp) hb)
    | union alternatives =>
      by_cases hl : alternatives.length = 1
      · obtain ⟨only, rfl⟩ := List.length_eq_one_iff.1 hl
        rw [ofSchema_single] at ho
        exact single only access depth optional conversion h ho (ih only (by simp) ho)
      · rw [ofSchema_union direction context access depth optional hl] at ho
        obtain ⟨branches, hb, ho⟩ := Traversal.bind_eq_ok_iff.1 ho
        cases ho
        exact union alternatives access depth optional branches h hl hb
          fun alternative ha access depth optional conversion hc => ih alternative ha hc
    | unknown value =>
      rw [ofSchema_unknown] at ho
      cases ho

end Conversion

end AvroBindings
