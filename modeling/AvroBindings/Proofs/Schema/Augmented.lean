import AvroBindings.Generate
import AvroBindings.Proofs.Registry
import AvroBindings.Proofs.Schema.Linked

/-! The passes over a document together. On a well-formed document they fail exactly if a reference is
ambiguous among the full names that the document defines, and the definitions that are collected are
those at its type positions. A path tells a type position by which of the types directly in a schema
to go to at every step, and the listing of the positions follows the lexicographic order of
paths. -/

namespace AvroBindings

namespace Schema

def defined (schema : Schema) : List Definition := schema.positions.filterMap definition?

theorem defined_eq (schema : Schema) :
    schema.defined = schema.definition?.toList ++ schema.children.flatMap defined := by
  unfold defined
  rw [positions_eq, List.filterMap_cons]
  cases schema.definition? <;> simp [List.filterMap_flatMap]

theorem defined_linked (resolve : String → String) (schema : Schema) :
    (schema.linked resolve).defined = schema.defined.map (Definition.linked resolve) := by
  unfold defined
  rw [positions_linked, List.filterMap_map, List.map_filterMap]
  exact congrArg (List.filterMap · schema.positions) (funext definition?_linked)

theorem definitionsAll_eq {schemas : List Schema}
    (h : ∀ schema ∈ schemas, schema.definitions = .ok schema.defined) :
    definitionsAll schemas = .ok (schemas.flatMap defined) := by
  induction schemas with
  | nil => rfl
  | cons schema rest ih =>
    have hr := ih fun other ho => h other (List.mem_cons_of_mem schema ho)
    rw [definitionsAll, h schema List.mem_cons_self, hr]
    rfl

end Schema

theorem Field.definitionsAll_eq {fields : List Field} (hf : ∀ field ∈ fields, field.Proper)
    (h : ∀ type ∈ (Fields.listed fields).types, type.definitions = .ok type.defined) :
    Field.definitionsAll fields =
      .ok ((Fields.listed fields).types.flatMap Schema.defined) := by
  induction fields with
  | nil => rfl
  | cons field rest ih =>
    obtain ⟨before, type, after, rfl⟩ := (hf field List.mem_cons_self).exists_mk
    have ht : type.definitions = .ok type.defined := h type (by simp [Fields.types, Field.type?])
    have hr := ih (fun other ho => hf other (List.mem_cons_of_mem _ ho)) fun other ho => by
      apply h other
      simp only [Fields.types, Field.type?, List.filterMap_cons] at ho ⊢
      exact List.mem_cons_of_mem type ho
    rw [definitionsAll, Field.definitions, ht, hr]
    rfl

theorem Fields.definitions_eq {fields : Fields} (hf : fields.Proper)
    (h : ∀ type ∈ fields.types, type.definitions = .ok type.defined) :
    fields.definitions = .ok (fields.types.flatMap Schema.defined) := by
  cases fields with
  | absent => rfl
  | listed fields => exact Field.definitionsAll_eq hf h
  | other value => cases hf

theorem Schema.definitions_eq {schema : Schema} (h : schema.WellFormed) :
    schema.definitions = .ok schema.defined := by
  induction schema using Schema.byChildren with
  | step schema ih =>
    have hc : ∀ child ∈ schema.children, child.definitions = .ok child.defined :=
      fun child hm => ih child hm (h.child hm)
    rw [defined_eq]
    cases schema with
    | union alternatives => exact definitionsAll_eq hc
    | record definition =>
      obtain ⟨before, fields, after⟩ := definition
      have hf := Fields.definitions_eq h.proper.fields hc
      rw [Record.fields_mk] at hf
      rw [definitions, Record.inner, hf]
      rfl
    | array before items after =>
      cases items with
      | none => cases h.proper
      | some items => simpa [definitions, definition?] using hc items (by simp)
    | map before values after =>
      cases values with
      | none => cases h.proper
      | some values => simpa [definitions, definition?] using hc values (by simp)
    | enum definition => rfl
    | primitive name wrapper => rfl
    | reference name => rfl
    | unknown value => rfl

namespace Schema

def registry (document : Schema) : Registry :=
  ({} : Registry).insertAll (document.named .null).fullNames

/-- A document with effective names and with full names as references. -/
def augmented (document : Schema) : Schema :=
  (document.named .null).linked document.registry.resolution

/-- A document in which no reference is ambiguous. -/
def Unambiguous (document : Schema) : Prop :=
  ∀ name ∈ document.references, ¬document.registry.IsAmbiguous name

theorem others_registry (document : Schema) : document.registry.others = [] :=
  Registry.others_insertAll {} _

theorem nodup_registry (document : Schema) : document.registry.names.Nodup :=
  Registry.nodup_insertAll List.nodup_nil _

theorem fullNames_augmented (document : Schema) :
    document.augmented.fullNames = (document.named .null).fullNames :=
  fullNames_linked _

theorem mem_registry {document : Schema} {name : String} :
    name ∈ document.registry.names ↔ name ∈ document.augmented.fullNames := by
  rw [fullNames_augmented, registry, Registry.mem_insertAll]
  simp

variable {document : Schema}

theorem wellFormed_augmented (h : document.WellFormed) : document.augmented.WellFormed :=
  wellFormed_linked (wellFormed_named h .none)

theorem allSettled_augmented (h : document.WellFormed) : document.augmented.AllSettled :=
  allSettled_linked (allSettled_named h .none)

theorem augment_fst (h : document.WellFormed) : (document.augment {}).1 = document.registry := by
  unfold augment registry
  rw [assign_eq h .none]

theorem augment_result (h : document.WellFormed) :
    (document.augment {}).2.result =
      (document.references.mapM document.registry.linkName).map fun _ => document.augmented := by
  have hl : (document.named .null).link document.registry = _ :=
    link_eq (wellFormed_named h .none)
  rw [references_named] at hl
  unfold augment
  rw [assign_eq h .none]
  exact hl

theorem augment_of_unambiguous (h : document.WellFormed) (hu : document.Unambiguous) :
    (document.augment {}).2.result = .ok document.augmented := by
  have hm : ∀ name ∈ document.references,
      ∃ full, document.registry.linkName name = .ok full := by
    intro name hn
    obtain ⟨full, hf⟩ :=
      Registry.exists_find (others_registry document) (nodup_registry document) (hu name hn)
    exact ⟨_, Registry.linkName_of_find hf⟩
  obtain ⟨names, hn⟩ := Traversal.exists_mapM_eq_ok hm
  rw [augment_result h, hn]
  rfl

theorem augment_of_ambiguous (h : document.WellFormed) (hu : ¬document.Unambiguous) :
    ∃ name ∈ document.references, document.registry.IsAmbiguous name ∧
      (document.augment {}).2.result = .error
        (.ambiguousReference name (Registry.sorted (document.registry.candidates name))) := by
  have hf : ∀ name, document.registry.IsAmbiguous name → document.registry.linkName name =
      .error (.ambiguousReference name (Registry.sorted (document.registry.candidates name))) := by
    intro name ha
    rw [Registry.linkName,
      Registry.find_of_ambiguous (others_registry document) (nodup_registry document) ha]
    rfl
  cases hm : document.references.mapM document.registry.linkName with
  | ok names =>
    refine absurd (fun name hn ha => ?_) hu
    obtain ⟨full, -, hl⟩ := Traversal.ok_of_mapM hm hn
    rw [hf name ha] at hl
    cases hl
  | error e =>
    obtain ⟨before, name, after, hs, -, he⟩ := Traversal.mapM_eq_error_iff.1 hm
    have ha : document.registry.IsAmbiguous name := by
      by_contra hn
      obtain ⟨full, hn⟩ :=
        Registry.exists_find (others_registry document) (nodup_registry document) hn
      rw [Registry.linkName_of_find hn] at he
      cases he
    rw [hf name ha] at he
    cases he
    refine ⟨name, by simp [hs], ha, ?_⟩
    rw [augment_result h, hm]
    rfl

theorem unambiguous_of_augment (h : document.WellFormed) {augmented : Schema}
    (ha : (document.augment {}).2.result = .ok augmented) : document.Unambiguous := by
  by_contra hu
  obtain ⟨name, -, -, he⟩ := augment_of_ambiguous h hu
  rw [he] at ha
  cases ha

theorem eq_augmented_of_augment (h : document.WellFormed) {augmented : Schema}
    (ha : (document.augment {}).2.result = .ok augmented) : augmented = document.augmented := by
  rw [augment_of_unambiguous h (unambiguous_of_augment h ha), Except.ok.injEq] at ha
  exact ha.symm

/-- What stands at the end of a path, if the path exists. -/
def at? (schema : Schema) : List Nat → Option Schema
  | [] => some schema
  | step :: path => schema.children[step]?.bind (·.at? path)

/-- The items are those that stand at type positions in one of the given forms, in the order of a
depth-first walk and once for each position. -/
def Lists {α : Type} (form : α → Schema) (schema : Schema) (items : List α) : Prop :=
  ∃ paths : List (List Nat), paths.Pairwise (· < ·) ∧
    (∀ path, path ∈ paths ↔ ∃ item, schema.at? path = some (form item)) ∧
    paths.map schema.at? = items.map fun item => some (form item)

def paths (schema : Schema) : List (List Nat) :=
  [] :: (schema.children.attach.mapIdx fun step child => child.1.paths.map (step :: ·)).flatten
termination_by sizeOf schema
decreasing_by exact sizeOf_lt_of_mem_children child.2

theorem paths_eq (schema : Schema) :
    schema.paths =
      [] :: (schema.children.mapIdx fun step child => child.paths.map (step :: ·)).flatten := by
  rw [paths]
  congr 2
  apply List.ext_getElem
  · simp
  · intro step hs ht
    simp

theorem mem_paths {schema : Schema} {path : List Nat} :
    path ∈ schema.paths ↔ ∃ type, schema.at? path = some type := by
  induction path generalizing schema with
  | nil =>
    rw [paths_eq]
    simp [at?]
  | cons step path ih =>
    rw [paths_eq]
    simp only [List.mem_cons, reduceCtorEq, false_or, List.mem_flatten, List.mem_mapIdx, at?]
    constructor
    · rintro ⟨_, ⟨index, hi, rfl⟩, hm⟩
      obtain ⟨inner, hp, he⟩ := List.mem_map.1 hm
      cases he
      rw [List.getElem?_eq_getElem hi]
      exact ih.1 hp
    · rintro ⟨type, ht⟩
      obtain ⟨child, hc, ha⟩ := Option.bind_eq_some_iff.1 ht
      obtain ⟨hi, rfl⟩ := List.getElem?_eq_some_iff.1 hc
      exact ⟨_, ⟨step, hi, rfl⟩, List.mem_map_of_mem (ih.2 ⟨type, ha⟩)⟩

theorem pairwise_paths (schema : Schema) : schema.paths.Pairwise (· < ·) := by
  induction schema using byChildren with
  | step schema ih =>
    rw [paths_eq, List.pairwise_cons, List.pairwise_flatten]
    refine ⟨?_, ?_, ?_⟩
    · intro path hp
      obtain ⟨_, hm, hp⟩ := List.mem_flatten.1 hp
      obtain ⟨step, hs, rfl⟩ := List.mem_mapIdx.1 hm
      obtain ⟨inner, -, rfl⟩ := List.mem_map.1 hp
      exact List.nil_lt_cons step inner
    · intro group hm
      obtain ⟨step, hs, rfl⟩ := List.mem_mapIdx.1 hm
      rw [List.pairwise_map]
      refine (ih _ (List.getElem_mem hs)).imp ?_
      intro left right hlt
      exact List.cons_lt_cons_iff.2 (.inr ⟨rfl, hlt⟩)
    · rw [List.pairwise_iff_getElem]
      intro i j hi hj hij left hl right hr
      rw [List.getElem_mapIdx] at hl hr
      obtain ⟨_, -, rfl⟩ := List.mem_map.1 hl
      obtain ⟨_, -, rfl⟩ := List.mem_map.1 hr
      exact List.cons_lt_cons_iff.2 (.inl hij)

theorem map_at?_paths (schema : Schema) :
    schema.paths.map schema.at? = schema.positions.map some := by
  induction schema using byChildren with
  | step schema ih =>
    rw [paths_eq, positions_eq, List.map_cons, List.map_cons, List.map_flatten, List.map_flatMap,
      List.flatMap_def]
    congr 2
    apply List.ext_getElem
    · simp
    · intro step hs ht
      have hc : step < schema.children.length := by simpa using hs
      have hi := ih schema.children[step] (List.getElem_mem hc)
      simp only [List.getElem_map, List.getElem_mapIdx, List.map_map]
      rw [← hi]
      apply List.map_congr_left
      intro path hp
      simp [at?, List.getElem?_eq_getElem hc]

theorem lists_filterMap {α : Type} {form : α → Schema} {pick : Schema → Option α}
    (hp : ∀ type item, pick type = some item ↔ type = form item) (schema : Schema) :
    schema.Lists form (schema.positions.filterMap pick) := by
  let found (path : List Nat) : Option α := (schema.at? path).bind pick
  have hf : ∀ path item, found path = some item ↔ schema.at? path = some (form item) := by
    intro path item
    simp [found, Option.bind_eq_some_iff, hp]
  refine ⟨schema.paths.filter fun path => (found path).isSome,
    (pairwise_paths schema).filter _, ?_, ?_⟩
  · intro path
    rw [List.mem_filter, Option.isSome_iff_exists, mem_paths]
    constructor
    · rintro ⟨-, item, hi⟩
      exact ⟨item, (hf path item).1 hi⟩
    · rintro ⟨item, hi⟩
      exact ⟨⟨_, hi⟩, item, (hf path item).2 hi⟩
  · have hm : schema.positions.filterMap pick = schema.paths.filterMap found := by
      have ha : schema.positions.filterMap pick =
          (schema.positions.map some).filterMap (·.bind pick) := by
        rw [List.filterMap_map]
        rfl
      rw [ha, ← map_at?_paths, List.filterMap_map]
      rfl
    rw [hm]
    clear hm
    induction schema.paths with
    | nil => rfl
    | cons path rest ih =>
      cases h : found path with
      | none => simpa [h] using ih
      | some item => simpa [h, (hf path item).1 h] using ih

theorem at?_linked {resolve : String → String} (schema : Schema) (path : List Nat) :
    (schema.linked resolve).at? path = (schema.at? path).map (linked resolve) := by
  induction path generalizing schema with
  | nil => rfl
  | cons step path ih =>
    rw [at?, at?, children_linked, List.getElem?_map]
    cases schema.children[step]? with
    | none => rfl
    | some child => exact ih child

theorem at?_named (parent : Json) (schema : Schema) (path : List Nat) :
    ∃ space : Json, (schema.named parent).at? path = (schema.at? path).map (named space) := by
  induction path generalizing schema parent with
  | nil => exact ⟨parent, rfl⟩
  | cons step path ih =>
    rw [at?, at?, children_named, List.getElem?_map]
    cases schema.children[step]? with
    | none => exact ⟨parent, rfl⟩
    | some child => exact ih _ child

end Schema

end AvroBindings
