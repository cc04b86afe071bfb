import AvroBindings.Proofs.Code.Reached

/-! Variables in the code of a conversion. All variables that are read are bound by a construct
around, or belong to the expression that the conversion is given, and no variable hides another one.
Every class that is named is that of a node which is converted there. -/

namespace AvroBindings

namespace Conversion

/-- Every piece of the code for a node is right in its place, if those of the access are. -/
def Sound (direction : Direction) (context : Context) (type : Schema) (start : Nat)
    (source : Access) (node : Schema) : Prop :=
  ∀ levels around access optional conversion, type.Reached start levels around node →
    (∀ piece ∈ access.pieces,
      piece.Uses source (around.flatMap Construct.names) (node.Classed context)) →
    ofSchema direction context node access ((start + levels : Nat) : Int) optional =
      .ok conversion →
    ∀ occurrence ∈ conversion.occurrences around, occurrence.Sound context type start source

end Conversion

namespace Context.Leads

variable {context : Context} {node : Schema} {definition : Definition}

theorem same_or_call (h : context.Leads node definition) {direction : Direction} {access : Access}
    {depth : Int} {optional : Bool} {conversion : Conversion}
    (hc : Conversion.ofSchema direction context node access depth optional = .ok conversion) :
    conversion = .same access ∨
      ∃ className, conversion = .call className direction access ∧
        node.Classed context className := by
  rw [h.conversion_eq] at hc
  cases definition with
  | enum own =>
    rw [Conversion.ofDefinition_enum] at hc
    exact .inl (Except.ok.inj hc).symm
  | record own =>
    rw [Conversion.ofDefinition_record] at hc
    obtain ⟨name, hn, rfl⟩ := Traversal.map_eq_ok_iff.1 hc
    exact .inr ⟨name.text, rfl, Schema.classed_of_record h hn⟩

theorem sound (h : context.Leads node definition) (direction : Direction) (type : Schema)
    (start : Nat) (source : Access) :
    Conversion.Sound direction context type start source node := by
  intro levels around access optional conversion hr ha hc
  obtain rfl | ⟨className, rfl, hn⟩ := h.same_or_call hc
  · exact Occurrence.sound_place hr ha
  · refine Occurrence.sound_place hr fun piece hp => ?_
    simp only [List.cons_append, List.mem_cons, List.mem_append, List.not_mem_nil, or_false] at hp
    obtain rfl | rfl | rfl | rfl | hp | rfl := hp
    · exact .inr hn
    · trivial
    · trivial
    · trivial
    · exact ha piece hp
    · trivial

end Context.Leads

namespace Branch

variable {context : Context} {type : Schema} {start levels : Nat} {source : Access}
  {around : List Construct} {node : Schema}

theorem sound_mk (hr : type.Reached start levels around node) {access : Access} {test : Test}
    {answer : Answer}
    (ha : ∀ piece ∈ access.pieces,
      piece.Uses source (around.flatMap Construct.names) (node.Classed context))
    (ht : ∀ className, test = .isInstance className → node.Classed context className)
    (hs : ∀ occurrence ∈ answer.occurrences around, occurrence.Sound context type start source) :
    ∀ occurrence ∈ (mk access test answer).occurrences around,
      occurrence.Sound context type start source := by
  intro occurrence ho
  rw [occurrences, List.mem_append, List.mem_append] at ho
  obtain (ho | ho) | ho := ho
  · refine Occurrence.sound_place hr (fun piece hp => ?_) occurrence ho
    simp only [List.cons_append, List.mem_cons, List.mem_append, List.not_mem_nil, or_false] at hp
    obtain rfl | hp | rfl | rfl := hp
    · trivial
    · exact Test.uses_pieces ht ha hp
    · trivial
    · trivial
  · exact hs occurrence ho
  · exact Occurrence.sound_code hr.nested _ occurrence ho

theorem sound_ofNull (hr : type.Reached start levels around node) {access : Access}
    (ha : ∀ piece ∈ access.pieces,
      piece.Uses source (around.flatMap Construct.names) (node.Classed context))
    (direction : Direction) (optional : Bool) :
    ∀ occurrence ∈ (ofNull direction optional access).occurrences around,
      occurrence.Sound context type start source := by
  cases optional <;> cases direction <;>
    exact sound_mk hr ha (fun _ he => nomatch he) (Occurrence.sound_code hr.nested _)

theorem sound_ofAlternative {alternatives : List Schema} {alternative : Schema}
    {direction : Direction} (hr : type.Reached start levels around (.union alternatives))
    (hm : alternative ∈ alternatives)
    (hs : Conversion.Sound direction context type start source alternative) {access : Access}
    (ha : ∀ piece ∈ access.pieces,
      piece.Uses source (around.flatMap Construct.names) fun _ => False)
    {branch : Branch} (hb : ofAlternative direction context access ((start + levels : Nat) : Int)
      alternative = .ok branch) :
    ∀ occurrence ∈ branch.occurrences around, occurrence.Sound context type start source := by
  have hr := hr.alternative hm
  have ha : ∀ piece ∈ access.pieces, piece.Uses source (around.flatMap Construct.names)
      (alternative.Classed context) :=
    fun piece hp => (ha piece hp).mono (List.Subset.refl _) fun _ hf => hf.elim
  cases hb using formed_cases with
  | deserialize tag conversion hb ht hv =>
    have hg : ∀ piece ∈ (access.tagged tag).pieces,
        piece.Uses source (around.flatMap Construct.names) (alternative.Classed context) :=
      fun piece => Access.uses_tagged ha fun className he => Tag.classed (he ▸ ht)
    refine sound_mk hr hg (fun _ he => nomatch he) fun occurrence ho => ?_
    obtain ho | ho := List.mem_append.1 ho
    · exact Occurrence.sound_code hr.nested _ occurrence ho
    · exact hs levels around _ _ _ hr hg hv occurrence ho
  | serialize test tag conversion hb hk ht hv =>
    have hi : ∀ className, test = .isInstance className →
        alternative.Classed context className := fun className he => Test.classed (he ▸ hk)
    refine sound_mk hr ha hi fun occurrence ho => ?_
    rw [Answer.occurrences, List.mem_append, List.mem_append] at ho
    obtain (ho | ho) | ho := ho
    · refine Occurrence.sound_place hr (fun piece hp => ?_) occurrence ho
      simp only [List.cons_append, List.mem_cons, List.mem_append, List.not_mem_nil,
        or_false] at hp
      obtain rfl | hp | rfl := hp
      · trivial
      · exact Tag.uses_keyPieces (fun className he => Tag.classed (he ▸ ht)) hp
      · trivial
    · exact hs levels around _ _ _ hr ha hv occurrence ho
    · exact Occurrence.sound_code hr.nested _ occurrence ho

end Branch

namespace Conversion

variable {direction : Direction} {context : Context} {type : Schema} {start : Nat} {source : Access}

theorem uses_bound {role : Role} {level : Nat} {scope : List String} {classes : String → Prop}
    (h : numbered role.name level ∈ scope) :
    ∀ piece ∈ (Access.bound ⟨role, level⟩).pieces, piece.Uses source scope classes := by
  intro piece hp
  cases List.mem_singleton.1 hp
  rw [Binding.text_eq]
  exact .inr h

theorem sound_array {before after : Attributes} {items : Schema}
    (hs : Sound direction context type start source items) :
    Sound direction context type start source (.array before (some items) after) := by
  intro levels around access optional conversion hr ha hc
  rw [ofSchema_array] at hc
  obtain ⟨body, hb, rfl⟩ := Traversal.map_eq_ok_iff.1 hc
  have hn := hr.nested.callback
  have hb := hs (levels + 1) _ _ _ _ hr.items (uses_bound List.mem_cons_self) hb
  simp only [occurrences, Binding.text_eq, List.forall_mem_append]
  refine ⟨⟨⟨Occurrence.sound_place hr ?_, Occurrence.sound_within hn ?_⟩, ?_⟩,
    Occurrence.sound_code hr.nested _⟩
  · exact List.forall_mem_append.2 ⟨ha, List.forall_mem_singleton.2 trivial⟩
  · simp [Construct.names, Role.name]
  · cases items.isMultiUnion with
    | false => exact hb
    | true =>
      have hp : ∀ piece ∈ [Piece.code "\x7b", .code "return "],
          piece.Fits source (.callback (numbered "e" (start + levels))) around := by simp
      exact List.forall_mem_append.2
        ⟨List.forall_mem_append.2 ⟨Occurrence.sound_within hn hp, hb⟩, Occurrence.sound_code hn _⟩

theorem sound_map {before after : Attributes} {values : Schema}
    (hs : Sound direction context type start source values) :
    Sound direction context type start source (.map before (some values) after) := by
  intro levels around access optional conversion hr ha hc
  rw [ofSchema_map] at hc
  obtain ⟨entry, -, hc⟩ := Traversal.bind_eq_ok_iff.1 hc
  obtain ⟨body, hb, hc⟩ := Traversal.bind_eq_ok_iff.1 hc
  cases hc
  have hf := hr.nested.function
  have hl := hr.nested.loop
  have hb := hs (levels + 1) _ _ _ _ hr.values
    (uses_bound (by simp [Construct.names, Role.name])) hb
  -- The access is used in the function and in the loop, so in more scope than its own.
  have hi : ∀ construct inner, ∀ piece ∈ access.pieces,
      piece.Fits source construct (inner ++ around) := by
    intro construct inner piece hp
    refine .inr ((ha piece hp).mono (fun name hn => ?_) fun _ => Schema.not_classed_map)
    rw [← List.cons_append, List.flatMap_append]
    exact List.mem_append_right _ hn
  simp only [occurrences, Construct.functionAt_eq, Construct.loopAt_eq, Binding.text_eq,
    List.forall_mem_append]
  refine ⟨⟨⟨⟨⟨⟨Occurrence.sound_code hr.nested _, Occurrence.sound_within hf ?_⟩,
    Occurrence.sound_within hl ?_⟩, hb⟩, Occurrence.sound_code hl _⟩,
    Occurrence.sound_within hf ?_⟩, Occurrence.sound_code hr.nested _⟩
  · have hi := hi (.function (numbered "keys" (start + levels))
      (numbered "output" (start + levels))) []
    simpa [Construct.names, Role.name, or_imp, forall_and] using hi
  · have hi := hi (.loop (numbered "mapKey" (start + levels))
      (numbered "mapValue" (start + levels)))
      [.function (numbered "keys" (start + levels)) (numbered "output" (start + levels))]
    simpa [Construct.names, Role.name, or_imp, forall_and] using hi
  · simp [Construct.names, Role.name]

theorem sound_union {alternatives : List Schema}
    (hs : ∀ alternative ∈ alternatives, Sound direction context type start source alternative) :
    Sound direction context type start source (.union alternatives) := by
  intro levels around access optional conversion hr ha hc
  have hi : ∀ piece ∈ access.pieces, piece.Uses source (around.flatMap Construct.names)
      fun _ => False := fun piece hp =>
    (ha piece hp).mono (List.Subset.refl _) fun _ => Schema.not_classed_union
  by_cases hl : alternatives.length = 1
  · obtain ⟨only, rfl⟩ := List.length_eq_one_iff.1 hl
    rw [ofSchema_single] at hc
    have hm := List.mem_singleton_self only
    exact hs only hm levels around _ _ _ (hr.alternative hm)
      (fun piece hp => (hi piece hp).mono (List.Subset.refl _) fun _ hf => hf.elim) hc
  · rw [ofSchema_union direction context access _ optional hl] at hc
    obtain ⟨branches, hb, hc⟩ := Traversal.bind_eq_ok_iff.1 hc
    cases hc
    rw [occurrences]
    refine List.forall_mem_append.2 ⟨List.forall_mem_append.2
      ⟨Occurrence.sound_code hr.nested _, fun occurrence ho => ?_⟩, Occurrence.sound_place hr ?_⟩
    · obtain ⟨branch, hm, ho⟩ | ho := Branch.mem_occurrencesAll ho
      · obtain hm | hm := List.mem_append.1 hm
        · unfold Branch.nullBranches at hm
          split at hm
          next =>
            cases List.mem_singleton.1 hm
            exact Branch.sound_ofNull hr ha direction optional occurrence ho
          next => cases hm
        · obtain ⟨alternative, hm, hb⟩ := Traversal.of_mem_mapM hb hm
          have hm := (Schema.mem_nonNull.1 hm).1
          exact Branch.sound_ofAlternative hr hm (hs alternative hm) hi hb occurrence ho
      · exact Occurrence.sound_code hr.nested _ occurrence ho
    · intro piece hp
      simp only [List.mem_cons, List.not_mem_nil, or_false] at hp
      obtain rfl | rfl | rfl | rfl := hp <;> trivial

theorem sound (direction : Direction) (context : Context) (type : Schema) (start : Nat)
    (source : Access) (node : Schema) : Sound direction context type start source node := by
  induction node using Schema.byChildren with
  | step node ih =>
    cases node with
    | primitive name wrapper =>
      intro levels around access optional conversion hr ha hc
      rw [ofSchema_primitive] at hc
      cases hc
      exact Occurrence.sound_place hr ha
    | reference name =>
      cases hd : context.resolve (.str name) with
      | error e =>
        intro levels around access optional conversion hr ha hc
        rw [ofSchema_reference_error direction context access _ optional hd] at hc
        cases hc
      | ok definition =>
        exact Context.Leads.sound (.reference name definition hd) direction type start source
    | enum own => exact Context.Leads.sound (.inline (.enum own)) direction type start source
    | record own => exact Context.Leads.sound (.inline (.record own)) direction type start source
    | array before items after =>
      cases items with
      | none =>
        intro levels around access optional conversion hr ha hc
        cases direction <;> cases hc
      | some items => exact sound_array (ih items (by simp))
    | map before values after =>
      cases values with
      | none =>
        intro levels around access optional conversion hr ha hc
        cases direction <;> cases hc
      | some values => exact sound_map (ih values (by simp))
    | union alternatives =>
      exact sound_union fun alternative ha => ih alternative (by simpa using ha)
    | unknown value =>
      intro levels around access optional conversion hr ha hc
      rw [ofSchema_unknown] at hc
      cases hc

end Conversion

/-- What holds of the variables at every piece of the code of a conversion. -/
structure Occurrence.Scoped (all : List Occurrence) (start : Nat) (source : Access)
    (occurrence : Occurrence) : Prop where
  /-- All variables in scope are numbered by the levels that they are bound at. -/
  nested : ∃ levels, Nested start levels occurrence.around
  distinct : occurrence.scope.Nodup
  /-- A variable is bound by the innermost construct, and no construct around has bound it yet. -/
  binds : ∀ name, occurrence.piece = .binds name →
    ∃ construct others, occurrence.around = construct :: others ∧ name ∈ construct.names ∧
      name ∉ others.flatMap Construct.names
  /-- What is in scope has been bound in this code. -/
  introduced : ∀ construct others, construct :: others <:+ occurrence.around →
    Introduces all others construct
  reads : ∀ name, occurrence.piece = .reads name →
    occurrence.piece ∈ source.pieces ∨ name ∈ occurrence.scope
  given : ∀ text, occurrence.piece = .given text → occurrence.piece ∈ source.pieces

theorem Access.binds_not_mem_pieces (access : Access) (name : String) :
    Piece.binds name ∉ access.pieces := by
  induction access with
  | given text => simp [pieces]
  | field field => simp [pieces]
  | bound binding => simp [pieces]
  | tagged access tag ih => cases tag <;> simp [pieces, Tag.pieces, ih]

theorem Access.uses_self (access : Access) (classes : String → Prop) :
    ∀ piece ∈ access.pieces, piece.Uses access [] classes := by
  intro piece hp
  cases piece with
  | code text => trivial
  | given text => exact hp
  | binds name => exact access.binds_not_mem_pieces name hp
  | reads name => exact .inl hp
  | names className => exact .inl hp

/-- The variables of a conversion. Each array and each object that is gone through binds variables
with the number of its level, counted from a given depth, also below unions and references. So no
variable hides another one, and all that are read are bound around or belong to the expression that
is converted. -/
theorem Conversion.occurrences_scoped (direction : Direction) (context : Context) (type : Schema)
    (access : Access) (depth : Nat) (optional : Bool) {conversion : Conversion}
    (h : ofSchema direction context type access depth optional = .ok conversion) :
    condensed conversion.render = Occurrence.condensedAll (conversion.occurrences []) ∧
      ∀ occurrence ∈ conversion.occurrences [],
        occurrence.Scoped (conversion.occurrences []) depth access := by
  refine ⟨conversion.condensed_render [], fun occurrence ho => ?_⟩
  have hs := sound direction context type depth access type 0 [] access optional conversion .top
    (access.uses_self _) h occurrence ho
  obtain ⟨levels, hn⟩ := hs.nested
  refine ⟨⟨levels, hn⟩, hn.nodup, fun name hb => ?_, fun construct others hc => ?_, hs.reads,
    hs.given⟩
  · obtain ⟨construct, others, he, hm⟩ := hs.binds name hb
    have hd : ((construct :: others).flatMap Construct.names).Nodup := he ▸ hn.nodup
    exact ⟨construct, others, he, hm, fun ho => List.disjoint_of_nodup_append hd hm ho⟩
  · have hi := conversion.introduced [] (List.Subset.refl _) occurrence ho construct others hc
    obtain hc | hi := hi
    · cases List.suffix_nil.1 hc
    · exact hi

def Schema.lines : Schema :=
  .map [] (some (.array [] (some (.union [.primitive .null none, .reference "Point"])) [])) []

theorem Conversion.occurrences_scoped_lines :
    ∃ conversion, ofSchema .serialize .point .lines (.field "lines") (1 : Nat) false =
        .ok conversion ∧
      (∃ occurrence ∈ conversion.occurrences [], occurrence.piece = .names "geo.Point" ∧
        occurrence.scope = ["e2", "mapKey1", "mapValue1", "keys1", "output1"]) ∧
      condensed conversion.render = Occurrence.condensedAll (conversion.occurrences []) ∧
      ∀ occurrence ∈ conversion.occurrences [],
        occurrence.Scoped (conversion.occurrences []) 1 (.field "lines") := by
  refine ⟨_, rfl, ?_, occurrences_scoped .serialize .point .lines (.field "lines") 1 false rfl⟩
  decide +kernel

end AvroBindings
