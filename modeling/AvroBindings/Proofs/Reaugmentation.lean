import AvroBindings.Proofs.Linking

/-! Augmenting a document again. Afterwards a null namespace may mean that a definition has none, or
that it is to take one from around it. A document that has been augmented stays as it is exactly if
the two never come apart. -/

namespace AvroBindings

namespace Attributes

theorem set_eq_self {attributes : Attributes} {key : String} {value : Json}
    (h : attributes.get? key = some value) : attributes.set key value = attributes := by
  induction attributes with
  | nil => cases h
  | cons entry rest ih =>
    obtain ⟨own, other⟩ := entry
    by_cases hk : own = key
    · subst hk
      rw [get?, if_pos rfl, Option.some.injEq] at h
      rw [set, if_pos rfl, ← h]
    · rw [get?, if_neg hk] at h
      rw [set, if_neg hk, ih h]

/-- A definition that is settled, with a namespace that is written down even where it is null. -/
structure Assigned (attributes : Attributes) : Prop where
  settled : attributes.Settled
  space : attributes.get? "namespace" = some attributes.space

variable {attributes : Attributes} {parent : Json}

theorem assigned_settle (h : attributes.Named) (hp : parent.IsSpace) :
    (attributes.settle parent).2.Assigned := by
  refine ⟨settled_settle h hp, ?_⟩
  obtain ⟨space, name, he, -, -⟩ := effectiveName_of_named h hp
  rw [settle_eq he, space_rename, rename, get?_set_self]

theorem Settled.exists_space (h : attributes.Settled) (hs : attributes.space ≠ .null) :
    ∃ text, attributes.space = .str text ∧ text ≠ "" := by
  cases hc : attributes.space with
  | null => exact absurd hc hs
  | str text =>
    have ht := hc ▸ h.space
    obtain _ | ⟨_, ht⟩ := ht
    exact ⟨text, rfl, ht⟩
  | _ =>
    have ht := hc ▸ h.space
    cases ht

theorem Settled.decides_iff (h : attributes.Settled) {text : String} :
    attributes.Decides text ↔ attributes.space = .str text := by
  obtain ⟨name, hn, hd⟩ := h.name
  constructor
  · rintro (⟨hw, ho⟩ | ⟨-, -, hs⟩)
    · rw [hn, Except.ok.injEq, Json.str.injEq] at hw
      exact absurd (hw ▸ ho.dot_mem) hd
    · exact hs
  · exact .byAttribute hn hd

theorem Assigned.settle_eq_self (h : attributes.Assigned)
    (hp : attributes.space = .null → parent = .null) :
    attributes.settle parent = (attributes.space, attributes) := by
  obtain ⟨name, hn, hd⟩ := h.settled.name
  have hs : splitLast '.' name.toList = none := (splitLast_eq_none_iff _).2 hd
  have he : attributes.effectiveName parent = .ok (attributes.space, .str name) := by
    simp only [effectiveName, hn, bind, Except.bind, hs]
    by_cases hc : attributes.space = .null
    · rw [hc, hp hc]
      rfl
    · obtain ⟨space, hs, ht⟩ := h.settled.exists_space hc
      rw [hs]
      change Except.ok (Json.orNull (.str space), _) = _
      rw [orNull_str, if_neg ht]
      rfl
  have hg : attributes.get? "name" = some (.str name) := by
    unfold Attributes.name at hn
    cases hg : attributes.get? "name" with
    | none => rw [hg] at hn; cases hn
    | some value => rw [hg] at hn; cases hn; rfl
  rw [settle_eq he, rename, set_eq_self hg, set_eq_self h.space]

end Attributes

def Schema.Assigned : Schema → Prop
  | .enum definition => definition.attributes.Assigned
  | .record definition => definition.attributes.Assigned ∧
    ∃ attributes fields, definition = .mk attributes (.listed fields) []
  | _ => True

namespace Schema

theorem assigned_named {schema : Schema} (h : schema.Proper) {parent : Json} (hp : parent.IsSpace)
    (resolve : String → String) : ((schema.named parent).linked resolve).Assigned := by
  cases schema with
  | enum definition => exact Attributes.assigned_settle h.named hp
  | record definition =>
    refine ⟨?_, ?_⟩
    · rw [Record.attributes_linked, Record.attributes_named]
      exact Attributes.assigned_settle h.named hp
    · obtain ⟨before, fields, after⟩ := definition
      exact ⟨_, _, rfl⟩
  | array before items after => cases items <;> trivial
  | map before values after => cases values <;> trivial
  | union alternatives => trivial
  | primitive name wrapper => trivial
  | reference name => trivial
  | unknown value => trivial

variable {document : Schema}

theorem assigned_augmented (h : document.WellFormed) :
    ∀ type ∈ document.augmented.positions, type.Assigned := by
  intro type ht
  rw [augmented, positions_linked, List.mem_map] at ht
  obtain ⟨named, hn, rfl⟩ := ht
  obtain ⟨origin, ho, space, hs, rfl⟩ := mem_positions_named h .none hn
  exact assigned_named (h origin ho) hs _

/-- The namespace of the nearest record around the end of a path, or that of a parent. -/
def spaceAround (parent : Json) (schema : Schema) (path : List Nat) : Json :=
  ((schema.enclosing path).head?.map Attributes.space).getD parent

/-- Every definition without a namespace stands where there is none around it. -/
def Stable (parent : Json) (schema : Schema) : Prop :=
  ∀ path (definition : Definition), schema.at? path = some definition.schema →
    definition.attributes.space = .null → schema.spaceAround parent path = .null

def ownSpace (parent : Json) : Schema → Json
  | record definition => definition.attributes.space
  | _ => parent

theorem spaceAround_cons {parent : Json} {schema child : Schema} {step : Nat}
    (hc : schema.children[step]? = some child) (path : List Nat) :
    schema.spaceAround parent (step :: path) =
      child.spaceAround (schema.ownSpace parent) path := by
  unfold spaceAround
  rw [enclosing, hc, Option.elim_some]
  cases child.enclosing path with
  | cons first others => rfl
  | nil => cases schema <;> rfl

theorem Stable.child {parent : Json} {schema child : Schema} (h : schema.Stable parent)
    (hm : child ∈ schema.children) : child.Stable (schema.ownSpace parent) := by
  intro path definition hd hn
  obtain ⟨step, hc⟩ := List.mem_iff_getElem?.1 hm
  rw [← spaceAround_cons hc]
  refine h (step :: path) definition ?_ hn
  rw [at?, hc]
  exact hd

theorem Stable.parent_eq_null {parent : Json} (definition : Definition)
    (h : definition.schema.Stable parent) (hn : definition.attributes.space = .null) :
    parent = .null :=
  h [] definition rfl hn

theorem named_eq_self {schema : Schema} (ha : ∀ type ∈ schema.positions, type.Assigned)
    {parent : Json} (hs : schema.Stable parent) : schema.named parent = schema := by
  -- what a parent gives changes at each record, and so does the induction hypothesis
  induction schema using byChildren generalizing parent with
  | step schema ih =>
    have hc : ∀ child ∈ schema.children, child.named (schema.ownSpace parent) = child :=
      fun child hm => ih child hm (fun type ht => ha type (positions_of_child hm ht)) (hs.child hm)
    have hn : schema.Assigned := ha schema (self_mem_positions schema)
    cases schema with
    | union alternatives =>
      have hm : ∀ alternative ∈ alternatives, alternative.named parent = alternative := hc
      rw [named, namedAll_eq, List.map_congr_left hm, List.map_id']
    | enum definition =>
      have hp : definition.attributes.space = .null → parent = .null :=
        Stable.parent_eq_null (.enum definition) hs
      rw [named, hn.settle_eq_self hp]
    | record definition =>
      obtain ⟨hd, attributes, fields, rfl⟩ := hn
      rw [Record.attributes_mk, List.append_nil] at hd
      have hp : attributes.space = .null → parent = .null := fun h =>
        Stable.parent_eq_null (.record (.mk attributes (.listed fields) [])) hs
          (by rwa [Definition.attributes, Record.attributes_mk, List.append_nil])
      have hf : ∀ field ∈ fields, field.named attributes.space = field := by
        rintro (⟨before, _ | type, after⟩ | value) hm
        · rfl
        · have ht := hc type (mem_types_listed.2 ⟨_, hm, rfl⟩)
          rw [ownSpace, Record.attributes_mk, List.append_nil] at ht
          rw [Field.named, ht]
        · rfl
      rw [named, Record.named, List.append_nil, hd.settle_eq_self hp, Fields.named,
        Field.namedAll_eq, List.map_congr_left hf, List.map_id']
    | array before items after =>
      cases items with
      | none => rfl
      | some items =>
        have hi : items.named parent = items := hc items (by simp)
        rw [named, hi]
    | map before values after =>
      cases values with
      | none => rfl
      | some values =>
        have hv : values.named parent = values := hc values (by simp)
        rw [named, hv]
    | primitive name wrapper => rfl
    | reference name => rfl
    | unknown value => rfl

end Schema

section Link

variable {first second : String → String}

theorem Schema.linked_linked (schema : Schema) :
    (schema.linked first).linked second = schema.linked (second ∘ first) := by
  induction schema using byChildren with
  | step schema ih =>
    cases schema with
    | union alternatives =>
      have hm : ∀ alternative ∈ alternatives, _ := ih
      rw [linked, linked, linked, linkedAll_eq, linkedAll_eq, linkedAll_eq, List.map_map]
      exact congrArg union (List.map_congr_left hm)
    | record definition =>
      obtain ⟨before, _ | fields | value, after⟩ := definition
      · rfl
      · have hf : ∀ field ∈ fields,
            (field.linked first).linked second = field.linked (second ∘ first) := by
          rintro (⟨before, _ | type, after⟩ | value) hm
          · rfl
          · rw [Field.linked, Field.linked, Field.linked, ih type (mem_types_listed.2 ⟨_, hm, rfl⟩)]
          · rfl
        simp only [linked, Record.linked, Fields.linked, Field.linkedAll_eq, List.map_map]
        rw [← List.map_congr_left hf]
        rfl
      · rfl
    | array before items after =>
      cases items with
      | none => rfl
      | some items => rw [linked, linked, linked, ih items (by simp)]
    | map before values after =>
      cases values with
      | none => rfl
      | some values => rw [linked, linked, linked, ih values (by simp)]
    | primitive name wrapper => rfl
    | reference name => rfl
    | enum definition => rfl
    | unknown value => rfl

theorem Registry.not_isAmbiguous_resolution {registry : Registry} {name : String}
    (h : ¬registry.IsAmbiguous name) : ¬registry.IsAmbiguous (registry.resolution name) := by
  cases hf : registry.find name with
  | error e => rwa [resolution, hf]
  | ok found =>
    cases found with
    | none => rwa [resolution, hf]
    | some full =>
      have hr : registry.resolution name = full := by rw [resolution, hf]
      rw [hr]
      exact fun ha => ha.1 (mem_of_find hf)

end Link

namespace Schema

variable {document : Schema}

theorem linked_augmented (document : Schema) :
    document.augmented.linked document.registry.resolution = document.augmented := by
  have hr : document.registry.resolution ∘ document.registry.resolution =
      document.registry.resolution :=
    funext document.registry.resolution_resolution
  rw [augmented, linked_linked, hr]

section Stable

variable (h : document.WellFormed) (hs : document.augmented.Stable .null)

include h hs

theorem named_augmented : document.augmented.named .null = document.augmented :=
  named_eq_self (assigned_augmented h) hs

theorem registry_augmented : document.augmented.registry = document.registry := by
  rw [registry, named_augmented h hs, fullNames_augmented, registry]

theorem augmented_augmented : document.augmented.augmented = document.augmented := by
  rw [augmented, named_augmented h hs, registry_augmented h hs, linked_augmented]

theorem unambiguous_augmented (hu : document.Unambiguous) : document.augmented.Unambiguous := by
  intro name hn
  obtain ⟨path, hp⟩ := mem_positions_iff_at?.1 (mem_references.1 hn)
  obtain ⟨origin, ho, rfl⟩ := ((kinds_at?_augmented document path).2.2 name).1 hp
  rw [registry_augmented h hs]
  exact Registry.not_isAmbiguous_resolution
    (hu origin (mem_references.2 (mem_positions_iff_at?.2 ⟨path, ho⟩)))

end Stable

theorem exists_record_of_enclosing {schema : Schema} {path : List Nat} {attributes : Attributes}
    (h : attributes ∈ schema.enclosing path) :
    ∃ definition, record definition ∈ schema.positions ∧ definition.attributes = attributes := by
  induction path generalizing schema with
  | nil => cases h
  | cons step path ih =>
    rw [enclosing, List.mem_append] at h
    obtain h | h := h
    · cases hc : schema.children[step]? with
      | none =>
        rw [hc] at h
        cases h
      | some child =>
        rw [hc] at h
        obtain ⟨definition, hd, ha⟩ := ih h
        exact ⟨definition, positions_of_child (List.mem_of_getElem? hc) hd, ha⟩
    · cases schema with
      | record definition =>
        exact ⟨definition, self_mem_positions _, (List.mem_singleton.1 h).symm⟩
      | _ => cases h

/-- A definition without a namespace takes the one around it when it is augmented again. -/
theorem exists_space_of_not_stable (h : document.WellFormed)
    (hs : ¬document.augmented.Stable .null) :
    ∃ path, ∃ (definition renamed : Definition) (space : String),
      document.augmented.at? path = some definition.schema ∧ definition.attributes.space = .null ∧
      document.augmented.augmented.at? path = some renamed.schema ∧
      renamed.attributes.space = .str space := by
  unfold Stable at hs
  push Not at hs
  obtain ⟨path, definition, hd, hn, hs⟩ := hs
  have ha := allSettled_augmented h
  have hp : definition.attributes.Settled :=
    ha _ (mem_positions_iff_at?.2 ⟨path, hd⟩) definition (by cases definition <;> rfl)
  cases he : document.augmented.enclosing path with
  | nil =>
    rw [spaceAround, he] at hs
    exact absurd rfl hs
  | cons around others =>
    obtain ⟨outer, ho, rfl⟩ := exists_record_of_enclosing (he ▸ List.mem_cons_self)
    have hr : outer.attributes.Settled := ha _ ho (.record outer) rfl
    rw [spaceAround, he] at hs
    obtain ⟨text, ht, hx⟩ := hr.exists_space hs
    obtain ⟨space, name, renamed, hf, hm, hq⟩ := exists_effective (wellFormed_augmented h) hd
    obtain ⟨own, _, hw, -, -, hl⟩ := hf
    rw [hd, Option.some.injEq] at hw
    cases Definition.schema_injective hw
    have hg : Attributes.Nearest none
        (definition.attributes :: document.augmented.enclosing path) (some text) := by
      rw [he]
      refine .passed (fun other hc => ?_) ?_
      · rw [hp.decides_iff, hn] at hc
        cases hc
      · have hc := @Attributes.Nearest.decided none _ others text (hr.decides_iff.2 ht)
        rwa [if_neg hx] at hc
    refine ⟨path, definition, renamed.linked document.augmented.registry.resolution, text, hd, hn,
      ?_, ?_⟩
    · rw [augmented, at?_linked, hm]
      cases renamed <;> rfl
    · rw [Definition.attributes_linked, hq, Attributes.space_rename, hl.unique hg]
      rfl

end Schema

theorem generate_congr {document other : Schema}
    (hr : (document.augment {}).1 = (other.augment {}).1)
    (ha : (document.augment {}).2.result = (other.augment {}).2.result) (options : Options) :
    (generate options document).result = (generate options other).result := by
  unfold generate
  simp only [Emitting.result_bind, hr, ha]

namespace Schema

variable {document : Schema}

theorem augment_of_isOk (h : document.WellFormed) (hk : (document.augment {}).2.result.isOk) :
    (document.augment {}).2.result = .ok document.augmented := by
  cases ha : (document.augment {}).2.result with
  | error e =>
    rw [ha] at hk
    cases hk
  | ok augmented => rw [eq_augmented_of_augment h ha]

theorem definition?_eq_some_iff {type : Schema} {definition : Definition} :
    type.definition? = some definition ↔ type = definition.schema := by
  cases type <;> cases definition <;> simp [definition?, Definition.schema]

/-- An augmented document stays as it is when it is augmented again, exactly if no definition
without a namespace stands in a record that has one. It then registers the same full names, and the
same is generated for it. Otherwise some definition without a namespace gets one. -/
theorem augment_augmented_iff (h : document.WellFormed) {augmented : Schema}
    (ha : (document.augment {}).2.result = .ok augmented) :
    ((augmented.augment {}).2.result = .ok augmented ↔ augmented.Stable .null) ∧
    (augmented.Stable .null → (augmented.augment {}).1 = (document.augment {}).1 ∧
      ∀ options, (generate options augmented).result = (generate options document).result) ∧
    (¬augmented.Stable .null → ∀ again, (augmented.augment {}).2.result = .ok again →
      ∃ path, ∃ (definition renamed : Definition) (space : String),
        augmented.at? path = some definition.schema ∧ definition.attributes.space = .null ∧
        again.at? path = some renamed.schema ∧ renamed.attributes.space = .str space) := by
  have hu := unambiguous_of_augment h ha
  obtain rfl := eq_augmented_of_augment h ha
  have hw := wellFormed_augmented h
  have hs : document.augmented.Stable .null →
      (document.augmented.augment {}).2.result = .ok document.augmented := by
    intro hs
    rw [augment_of_unambiguous hw (unambiguous_augmented h hs hu), augmented_augmented h hs]
  have hn : ¬document.augmented.Stable .null → _ := exists_space_of_not_stable h
  refine ⟨⟨fun hg => ?_, hs⟩, fun ht => ?_, fun ht again hg => ?_⟩
  · by_contra ht
    obtain ⟨path, definition, renamed, space, hd, hp, hr, hq⟩ := hn ht
    rw [← eq_augmented_of_augment hw hg, hd, Option.some.injEq] at hr
    cases Definition.schema_injective hr
    rw [hp] at hq
    cases hq
  · have hr : (document.augmented.augment {}).1 = (document.augment {}).1 := by
      rw [augment_fst hw, augment_fst h, registry_augmented h ht]
    refine ⟨hr, generate_congr hr ?_⟩
    rw [hs ht, ha]
  · rw [eq_augmented_of_augment hw hg]
    exact hn ht

theorem augment_augmented_iff_sample :
    (∃ augmented, (sample.augment {}).2.result = .ok augmented ∧
      (augmented.augment {}).2.result = .ok augmented) ∧
    ∃ augmented, (resetting.augment {}).2.result = .ok augmented ∧
      (augmented.augment {}).2.result ≠ .ok augmented := by
  have hs : (sample.augment {}).2.result.isOk := by decide +kernel
  have hr : (resetting.augment {}).2.result.isOk := by decide +kernel
  refine ⟨⟨sample.augmented, ?_⟩, resetting.augmented, ?_⟩
  · have ha := augment_of_isOk wellFormed_sample hs
    refine ⟨ha, (augment_augmented_iff wellFormed_sample ha).1.2 fun path definition hd hn => ?_⟩
    have hl : sample.augmented.defined.all fun own => own.attributes.space.isTruthy := by
      decide +kernel
    have hc := List.all_eq_true.1 hl definition
      (mem_defined.2 (mem_positions_iff_at?.2 ⟨path, hd⟩))
    rw [hn] at hc
    cases hc
  · have ha := augment_of_isOk wellFormed_resetting hr
    refine ⟨ha, fun he => ?_⟩
    have hp : ((resetting.augmented.at? [0]).bind definition?).any
        fun own => !own.attributes.space.isTruthy := by decide +kernel
    have hc : (resetting.augmented.spaceAround .null [0]).isTruthy := by decide +kernel
    obtain ⟨own, ho, hn⟩ := (Option.any_eq_true _ _).1 hp
    obtain ⟨type, ht, ho⟩ := Option.bind_eq_some_iff.1 ho
    have hd : resetting.augmented.at? [0] = some own.schema := definition?_eq_some_iff.1 ho ▸ ht
    have hs : own.attributes.space = .null := by
      have hm := mem_defined.2 (mem_positions_iff_at?.2 ⟨[0], hd⟩)
      have hi := ((allSettled_augmented wellFormed_resetting).of_mem_defined hm).space
      generalize own.attributes.space = space at hi hn
      cases hi with
      | none => rfl
      | text space h => simp [Json.isTruthy, h] at hn
    rw [(augment_augmented_iff wellFormed_resetting ha).1.1 he [0] own hd hs] at hc
    cases hc

end Schema

end AvroBindings
