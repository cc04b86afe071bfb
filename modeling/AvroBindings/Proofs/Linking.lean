import AvroBindings.Proofs.EffectiveNames

/-! References against the whole document. What a reference stands for depends on the full names
that the document defines anywhere, and not on where the reference stands. Where several of them end
in a reference, the first such reference in the order of a depth-first walk is reported. -/

namespace AvroBindings

namespace Registry

theorem find_resolution {registry : Registry} {name full : String}
    (h : registry.find name = .ok (some full)) :
    registry.find (registry.resolution name) = registry.find name := by
  have hr : registry.resolution name = full := by rw [resolution, h]
  rw [hr, h]
  exact find_of_mem (mem_of_find h)

theorem resolution_resolution (registry : Registry) (name : String) :
    registry.resolution (registry.resolution name) = registry.resolution name := by
  cases hf : registry.find name with
  | error e => simp only [resolution, hf]
  | ok found =>
    cases found with
    | none => simp only [resolution, hf]
    | some full =>
      rw [resolution, find_resolution hf, hf, resolution, hf]

end Registry

namespace Schema

/-- A name that is no full name of the document, and the last segment of several. -/
def Clashes (document : Schema) (name : String) : Prop :=
  ¬document.Defines name ∧ ∃ first second, first ≠ second ∧
    document.Defines first ∧ LastSegment name first ∧
    document.Defines second ∧ LastSegment name second

/-- The name stands as a reference that clashes, and no reference before it does. -/
def FirstClash (document : Schema) (name : String) : Prop :=
  ∃ path, document.at? path = some (.reference name) ∧ document.Clashes name ∧
    ∀ earlier < path, ∀ other, document.at? earlier = some (.reference other) →
      ¬document.Clashes other

/-- What a name stands for: itself if it is a full name of the document, else the only full name
that ends in it, and itself where there is none. -/
inductive Denotes (document : Schema) (name : String) : String → Prop where
  | full (h : document.Defines name) : Denotes document name name
  | short {full : String} (hn : ¬document.Defines name) (hd : document.Defines full)
    (hs : LastSegment name full)
    (hu : ∀ other, document.Defines other → LastSegment name other → other = full) :
    Denotes document name full
  | unknown (hn : ¬document.Defines name)
    (hs : ∀ other, document.Defines other → ¬LastSegment name other) : Denotes document name name

theorem Denotes.unique {document : Schema} {name full other : String}
    (h : document.Denotes name full) (ho : document.Denotes name other) : full = other := by
  cases h with
  | full hd =>
    cases ho with
    | full _ => rfl
    | short hn _ _ _ => exact absurd hd hn
    | unknown hn _ => rfl
  | short hn hd hs hu =>
    cases ho with
    | full hf => exact absurd hf hn
    | short _ hf hl _ => exact (hu _ hf hl).symm
    | unknown _ hp => exact absurd hs (hp _ hd)
  | unknown hn hp =>
    cases ho with
    | full _ => rfl
    | short _ hf hl _ => exact absurd hl (hp _ hf)
    | unknown _ _ => rfl

variable {document : Schema}

theorem isAmbiguous_registry (h : document.WellFormed) {name : String} :
    document.registry.IsAmbiguous name ↔ document.Clashes name := by
  unfold Registry.IsAmbiguous Clashes
  simp only [mem_registry_iff h, lastSegment_eq_iff]
  refine and_congr_right fun _ => exists_congr fun first => ?_
  constructor
  · rintro ⟨hf, second, hs, hne, hl, hl'⟩
    exact ⟨second, hne, hf, hl, hs, hl'⟩
  · rintro ⟨second, hne, hf, hl, hs, hl'⟩
    exact ⟨hf, second, hs, hne, hl, hl'⟩

theorem mem_candidates_registry (h : document.WellFormed) {name full : String} :
    full ∈ document.registry.candidates name ↔ document.Defines full ∧ LastSegment name full := by
  rw [Registry.mem_candidates, mem_registry_iff h, lastSegment_eq_iff]

theorem denotes_resolution (h : document.WellFormed) {name : String} (hc : ¬document.Clashes name) :
    document.Denotes name (document.registry.resolution name) := by
  unfold Registry.resolution
  rw [← isAmbiguous_registry h] at hc
  obtain ⟨-, -, full, hf⟩ | ⟨-, hk, hf⟩ | ⟨ha, -⟩ :=
    Registry.find_cases (others_registry document) (nodup_registry document) name
  · rw [hf]
    obtain ⟨hm, rfl⟩ | ⟨hm, hs⟩ := Registry.find_eq_some hf
    · exact .full ((mem_registry_iff h).1 hm)
    · have hu : ∀ other, document.Defines other ∧ LastSegment name other ↔ other = full := by
        intro other
        rw [← mem_candidates_registry h, hs, List.mem_singleton]
      rw [mem_registry_iff h] at hm
      obtain ⟨hd, hl⟩ := (hu full).2 rfl
      exact .short hm hd hl fun other ho hl => (hu other).1 ⟨ho, hl⟩
  · rw [hf]
    refine .unknown (fun hd => hk ⟨name, (mem_registry_iff h).2 hd, .inl rfl⟩) fun other ho hl => ?_
    exact hk ⟨other, (mem_registry_iff h).2 ho, .inr (lastSegment_eq_iff.2 hl)⟩
  · exact absurd ha hc

theorem lists_references (schema : Schema) : schema.Lists reference schema.references := by
  rw [references_eq]
  apply lists_filterMap
  intro type name
  cases type <;> simp [reference?, eq_comm]

theorem Lists.exists_path {α : Type} {form : α → Schema} (hf : Function.Injective form)
    {schema : Schema} {before after : List α} {item : α}
    (h : schema.Lists form (before ++ item :: after)) :
    ∃ path, schema.at? path = some (form item) ∧ ∀ earlier < path, ∀ other,
      schema.at? earlier = some (form other) → other ∈ before := by
  obtain ⟨paths, hp, hm, he⟩ := h
  rw [List.map_append, List.map_cons] at he
  obtain ⟨first, rest, rfl, hb, hr⟩ := List.map_eq_append_iff.1 he
  obtain ⟨path, last, rfl, ha, -⟩ := List.map_eq_cons_iff.1 hr
  refine ⟨path, ha, fun earlier hl other ho => ?_⟩
  -- the paths increase, so one that is less than this one is listed before it
  have hn : earlier ∉ path :: last := by
    intro hi
    obtain rfl | hi := List.mem_cons.1 hi
    · exact List.lt_irrefl _ hl
    · exact List.lt_asymm hl ((List.pairwise_cons.1 (List.pairwise_append.1 hp).2.1).1 _ hi)
  have hi := (hm earlier).2 ⟨other, ho⟩
  have hs := List.mem_map_of_mem (f := schema.at?) ((List.mem_append.1 hi).resolve_right hn)
  rw [hb, ho] at hs
  obtain ⟨same, hw, hs⟩ := List.mem_map.1 hs
  rw [Option.some.injEq] at hs
  exact hf hs ▸ hw

theorem linkName_cases (h : document.WellFormed) (name : String) :
    (¬document.Clashes name ∧
        document.registry.linkName name = .ok (document.registry.resolution name)) ∨
      (document.Clashes name ∧ document.registry.linkName name = .error
        (.ambiguousReference name (Registry.sorted (document.registry.candidates name)))) := by
  have ho := others_registry document
  have hn := nodup_registry document
  rw [← isAmbiguous_registry h]
  by_cases ha : document.registry.IsAmbiguous name
  · refine .inr ⟨ha, ?_⟩
    rw [Registry.linkName, Registry.find_of_ambiguous ho hn ha]
    rfl
  · obtain ⟨full, hf⟩ := Registry.exists_find ho hn ha
    exact .inl ⟨ha, Registry.linkName_of_find hf⟩

theorem firstClash_of_error (h : document.WellFormed) {e : Error}
    (he : (document.augment {}).2.result = .error e) :
    ∃ name, document.FirstClash name ∧ e =
      .ambiguousReference name (Registry.sorted (document.registry.candidates name)) := by
  rw [augment_result h] at he
  cases hm : document.references.mapM document.registry.linkName with
  | ok names =>
    rw [hm] at he
    cases he
  | error e' =>
    rw [hm] at he
    cases he
    obtain ⟨before, name, after, hs, hb, hn⟩ := Traversal.mapM_eq_error_iff.1 hm
    obtain ⟨-, ho⟩ | ⟨hc, ho⟩ := linkName_cases h name
    · rw [ho] at hn
      cases hn
    · rw [ho, Except.error.injEq] at hn
      have hl := lists_references document
      rw [hs] at hl
      obtain ⟨path, hp, hf⟩ := hl.exists_path fun left right he => by simpa using he
      refine ⟨name, ⟨path, hp, hc, fun earlier hlt other hr hco => ?_⟩, hn.symm⟩
      obtain ⟨full, hk⟩ := hb other (hf earlier hlt other hr)
      obtain ⟨hn, -⟩ | ⟨-, hk'⟩ := linkName_cases h other
      · exact hn hco
      · rw [hk] at hk'
        cases hk'

theorem augment_of_not_clashes (h : document.WellFormed)
    (hc : ∀ path name, document.at? path = some (.reference name) → ¬document.Clashes name) :
    (document.augment {}).2.result = .ok document.augmented := by
  refine augment_of_unambiguous h fun name hn => ?_
  obtain ⟨path, hp⟩ := mem_positions_iff_at?.1 (mem_references.1 hn)
  rw [isAmbiguous_registry h]
  exact hc path name hp

/-- Augmenting a well-formed document fails exactly if some reference clashes with the full names of
the whole document, and then names the first one with all the full names that end in it. Otherwise
every reference is replaced by what it stands for, wherever it stands. -/
theorem references_denote (h : document.WellFormed) :
    ((∃ name candidates, (document.augment {}).2.result =
        .error (.ambiguousReference name candidates)) ↔
      ∃ path name, document.at? path = some (.reference name) ∧ document.Clashes name) ∧
    (∀ name candidates,
      (document.augment {}).2.result = .error (.ambiguousReference name candidates) →
        document.FirstClash name ∧ candidates.Pairwise (· < ·) ∧
        ∀ full, full ∈ candidates ↔ document.Defines full ∧ LastSegment name full) ∧
    ((∀ path name, document.at? path = some (.reference name) → ¬document.Clashes name) →
      ∃ augmented, (document.augment {}).2.result = .ok augmented ∧
        ∀ path full, augmented.at? path = some (.reference full) ↔
          ∃ name, document.at? path = some (.reference name) ∧ document.Denotes name full) := by
  refine ⟨⟨?_, ?_⟩, ?_, ?_⟩
  · rintro ⟨name, candidates, he⟩
    obtain ⟨first, ⟨path, hp, hc, -⟩, -⟩ := firstClash_of_error h he
    exact ⟨path, first, hp, hc⟩
  · rintro ⟨path, name, hp, hc⟩
    cases hr : (document.augment {}).2.result with
    | error e =>
      obtain ⟨first, -, he⟩ := firstClash_of_error h hr
      exact ⟨_, _, congrArg Except.error he⟩
    | ok augmented =>
      have hn := mem_references.2 (mem_positions_iff_at?.2 ⟨path, hp⟩)
      exact absurd ((isAmbiguous_registry h).2 hc) (unambiguous_of_augment h hr name hn)
  · intro name candidates he
    obtain ⟨first, hf, hc⟩ := firstClash_of_error h he
    cases hc
    refine ⟨hf, Registry.pairwise_sorted ((nodup_registry document).filter _), fun full => ?_⟩
    rw [Registry.mem_sorted, mem_candidates_registry h]
  · intro hc
    refine ⟨document.augmented, augment_of_not_clashes h hc, fun path full => ?_⟩
    rw [(kinds_at?_augmented document path).2.2]
    refine exists_congr fun name => and_congr_right fun hp => ?_
    have hd := denotes_resolution h (hc path name hp)
    exact ⟨fun he => he ▸ hd, fun hf => hd.unique hf⟩

theorem references_denote_sample :
    sample.WellFormed ∧ ∃ augmented, (sample.augment {}).2.result = .ok augmented ∧
      augmented.at? [2, 0, 0] = some (.reference "tree.Node") := by
  obtain ⟨hc, -, hr⟩ := references_denote wellFormed_sample
  have hn : ∀ path name, sample.at? path = some (.reference name) → ¬sample.Clashes name := by
    intro path name hp hn
    have hs : (sample.augment {}).2.result.isOk := by decide +kernel
    obtain ⟨_, _, he⟩ := hc.2 ⟨path, name, hp, hn⟩
    rw [he] at hs
    cases hs
  have hd : ∀ full, sample.Defines full ↔ full ∈ ["tree.Node", "tree.Kind"] := fun full => by
    have hs : sample.registry.names = ["tree.Node", "tree.Kind"] := by decide +kernel
    rw [← mem_registry_iff wellFormed_sample, hs]
  have hl : LastSegment "Node" "tree.Node" := ⟨by decide, .inr ⟨"tree", rfl⟩⟩
  have hk : LastSegment "Kind" "tree.Kind" := ⟨by decide, .inr ⟨"tree", rfl⟩⟩
  obtain ⟨augmented, ha, hf⟩ := hr hn
  refine ⟨wellFormed_sample, augmented, ha, (hf [2, 0, 0] "tree.Node").2 ⟨"Node", rfl, ?_⟩⟩
  refine .short (by rw [hd]; decide) (by rw [hd]; decide) hl fun other ho hs => ?_
  rw [hd] at ho
  simp only [List.mem_cons, List.not_mem_nil, or_false] at ho
  obtain rfl | rfl := ho
  · rfl
  · exact absurd (hs.unique hk) (by decide)

end Schema

end AvroBindings
