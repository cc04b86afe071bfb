import AvroBindings.Proofs.Runtime.Unions

/-! Conversions of both directions are inverse on the values of a schema, if the methods of the
records in it are. The fields of a record are then restored, and by the depth of records in a value
so are its instances. -/

namespace AvroBindings.Runtime

variable {κ ν : Type} {world : World κ ν} [DecidableEq κ]
  {call : κ → Direction → Value κ ν → Except Failure (Value κ ν)} {context : Context}
  {records : List Record} {classOf : Record → κ} {self : Record}

/-- An instance of a class that its methods write to something and restore from it. -/
structure Carried (call : κ → Direction → Value κ ν → Except Failure (Value κ ν)) (own : κ)
    (value restored : Value κ ν) : Prop where
  isInstance : ∃ properties, value = .object (some own) properties
  wire : ∃ wire, wire ≠ .undefined ∧ call own .serialize value = .ok wire ∧
    call own .deserialize wire = .ok restored

namespace Inverse

theorem of_same {optional : Bool} {schema : Schema} {value : Value κ ν}
    (hu : value ≠ .undefined) (h : ∀ direction access depth,
      Conversion.ofSchema direction context schema access depth optional = .ok (.same access)) :
    Inverse world (classOf self) call context optional schema value value :=
  ⟨value, hu, converts_same (h .serialize), converts_same (h .deserialize)⟩

variable {related : Record → Value κ ν → Value κ ν → Prop} {value restored : Value κ ν}
  {optional : Bool}

theorem of_leads (hw : world.Setting context records classOf) (hs : self ∈ records)
    (hc : ∀ own ∈ records, ∀ value restored, related own value restored →
      Carried call (classOf own) value restored)
    {schema : Schema} {definition : Definition} (hl : context.Leads schema definition)
    (hp : schema.Proper) (hm : ∀ own, definition = .record own → own ∈ records)
    (hf : World.FitsDefinition related definition value restored) :
    Inverse world (classOf self) call context optional schema value restored := by
  have ho := hl.conversion (hl.proper hw.proper hp).legible
  cases definition with
  | enum own =>
    obtain ⟨⟨symbol, -, rfl⟩, rfl⟩ := hf
    exact of_same (by simp) fun direction access depth => ho direction access depth optional
  | record own =>
    obtain ⟨wire, hu, hser, hdes⟩ := (hc own (hm own rfl) value restored hf).wire
    have hcall : ∀ direction (given made : Value κ ν),
        call (classOf own) direction given = .ok made →
        Converts world (classOf self) call context direction optional schema given made := by
      intro direction given made hx scope access depth hb hr
      refine ⟨_, ho direction access depth optional, ?_⟩
      rw [← hx]
      exact eval_call hw.toRealizes hs (hm own rfl) hr
    exact ⟨wire, hu, hcall .serialize value wire hser, hcall .deserialize wire restored hdes⟩

theorem of_alternative (hw : world.Setting context records classOf) (hs : self ∈ records)
    (hc : ∀ own ∈ records, ∀ value restored, related own value restored →
      Carried call (classOf own) value restored)
    {alternatives : List Schema} {alternative : Schema}
    (hr : Ready context records (.union alternatives)) (hl : alternatives.length ≠ 1)
    (hm : alternative ∈ alternatives)
    (hf : world.Fits context related alternative value restored)
    (ho : optional = true → value ≠ .null)
    (h : Inverse world (classOf self) call context false alternative value restored) :
    Inverse world (classOf self) call context optional (.union alternatives) value restored := by
  have hex : ∀ direction access depth, ∃ conversion, Conversion.ofSchema direction context
      (.union alternatives) access depth false = .ok conversion :=
    fun direction access depth => hr.exists_ofSchema hw.proper direction access depth false
  cases hn : alternative.isNull with
  | true =>
    obtain ⟨wrapper, rfl⟩ := Schema.isNull_iff.1 hn
    have ha : alternatives.any Schema.isNull := List.any_eq_true.2 ⟨_, hm, hn⟩
    rw [World.Fits] at hf
    obtain ⟨rfl, rfl⟩ := hf
    cases optional with
    | true => exact absurd rfl (ho rfl)
    | false =>
      exact ⟨.null, by simp, converts_null hl ha (hex .serialize),
        converts_null hl ha (hex .deserialize)⟩
  | false =>
    have hmn : alternative ∈ Schema.nonNull alternatives := Schema.mem_nonNull.2 ⟨hm, hn⟩
    have hx : alternative.Proper ∧ ∃ shape, Shaped context records classOf alternative shape :=
      exists_shaped_alternative hr hl hmn
    obtain ⟨hp, shape, hshape⟩ := hx
    have ha := hshape.accepts hw hs hp (fun own hm value restored hr =>
      (hc own hm value restored hr).isInstance) hf
    exact Inverse.union hw hs hr hl hm hn ha h

/-- The conversions of a schema are inverse on its values, but for null in an optional field. -/
theorem of_fits (hw : world.Setting context records classOf) (hs : self ∈ records)
    (hc : ∀ own ∈ records, ∀ value restored, related own value restored →
      Carried call (classOf own) value restored)
    {schema : Schema} (hr : Ready context records schema)
    (hf : world.Fits context related schema value restored)
    (ho : optional = true → value ≠ .null) :
    Inverse world (classOf self) call context optional schema value restored := by
  induction hf using World.fits_induction generalizing optional with
  | primitive name wrapper value h ha =>
    refine of_same ?_ fun direction access depth =>
      Conversion.ofSchema_primitive direction context access depth optional name wrapper
    rintro rfl
    cases name <;> simp [World.Admits] at ha
  | definition node definition value restored h hl hf =>
    refine of_leads hw hs hc hl hr.wellFormed.proper ?_ hf
    rintro own rfl
    exact hr.leads node (Schema.self_mem_constituents node) own hl
  | union alternatives alternative value restored h hf hm ih =>
    have ha : Ready context records alternative := hr.operand hm
    by_cases hl : alternatives.length = 1
    · obtain ⟨only, rfl⟩ := List.length_eq_one_iff.1 hl
      cases List.mem_singleton.1 hm
      obtain ⟨wire, hu, hser, hdes⟩ := ih ha ho
      exact ⟨wire, hu, hser.single, hdes.single⟩
    · exact of_alternative hw hs hc hr hl hm hf ho (ih ha (by simp))
  | array before items after pairs h hp ih =>
    have hi : Ready context records items := hr.operand (by simp [Schema.operands])
    have hall : ∀ pair ∈ pairs,
        Inverse world (classOf self) call context false items pair.1 pair.2 :=
      fun pair hm => ih pair hm hi (by simp)
    choose! wire hu hser hdes using hall
    have hex := fun direction access depth =>
      hi.exists_ofSchema hw.proper direction access depth false
    exact ⟨.array (pairs.map wire), by simp, converts_array hser (hex .serialize),
      converts_array hdes (hex .deserialize)⟩
  | map before values after entries h hp hn ih =>
    have hv : Ready context records values := hr.operand (by simp [Schema.operands])
    have hall : ∀ entry ∈ entries,
        Inverse world (classOf self) call context false values entry.2.1 entry.2.2 :=
      fun entry hm => ih entry hm hv (by simp)
    choose! wire hu hser hdes using hall
    have hex := fun direction access depth =>
      hv.exists_ofSchema hw.proper direction access depth false
    have ht := hr.exists_entriesType hw.proper
    exact ⟨.object none (entries.map fun entry => (entry.1, wire entry)), by simp,
      converts_map hn hser (ht .serialize) (hex .serialize),
      converts_map hn hdes (ht .deserialize) (hex .deserialize)⟩

end Inverse

section Fields

variable {related : Record → Value κ ν → Value κ ν → Prop} {value restored : Value κ ν}

theorem exists_wire_of_misses (hw : world.Setting context records classOf) {type : Schema}
    (hr : Ready context records type) (hm : World.Misses type value) :
    ∃ wire, Converts world (classOf self) call context .serialize type.isOptional type value wire ∧
      Converts world (classOf self) call context .deserialize type.isOptional type wire
        .undefined := by
  obtain ⟨ho, hv⟩ := hm
  obtain ⟨wrapper, rest, rfl⟩ := Schema.isOptional_iff.1 ho
  rw [ho]
  cases rest with
  | nil =>
    obtain rfl : value = .undefined := by simpa [Schema.isMultiUnion] using hv
    have hsame : ∀ direction, Converts world (classOf self) call context direction true
        (.primitive .null wrapper) .undefined .undefined := fun direction =>
      converts_same fun access depth =>
        Conversion.ofSchema_primitive direction context access depth true .null wrapper
    exact ⟨.undefined, (hsame .serialize).single, (hsame .deserialize).single⟩
  | cons second rest =>
    have hl : (Schema.primitive .null wrapper :: second :: rest).length ≠ 1 := by simp
    have hn : (Schema.primitive .null wrapper :: second :: rest).any Schema.isNull := by
      simp [Schema.isNull]
    have hex := fun direction access depth =>
      hr.exists_ofSchema hw.proper direction access depth true
    have hv : value = .null ∨ value = .undefined := hv.symm.imp And.right id
    exact ⟨.null, converts_missing hl hn (hex .serialize) hv,
      converts_missing hl hn (hex .deserialize) (.inl rfl)⟩

theorem exists_wire_of_fitsField (hw : world.Setting context records classOf) (hs : self ∈ records)
    (hc : ∀ own ∈ records, ∀ value restored, related own value restored →
      Carried call (classOf own) value restored)
    {type : Schema} (hr : Ready context records type)
    (hf : world.FitsField context related type value restored) :
    ∃ wire, Converts world (classOf self) call context .serialize type.isOptional type value wire ∧
      Converts world (classOf self) call context .deserialize type.isOptional type wire
        restored := by
  obtain ⟨hm, rfl⟩ | ⟨hm, hf⟩ := hf
  · exact exists_wire_of_misses hw hr hm
  by_cases hg : type.isOptional = true → value ≠ .null
  · obtain ⟨wire, -, hser, hdes⟩ := Inverse.of_fits hw hs hc hr hf hg
    exact ⟨wire, hser, hdes⟩
  · -- Null is a value of its own in a union of nothing but null.
    obtain ⟨ho, hv⟩ := Classical.not_imp.1 hg
    obtain rfl : value = .null := not_not.1 hv
    obtain ⟨wrapper, rest, rfl⟩ := Schema.isOptional_iff.1 ho
    cases rest with
    | nil =>
      obtain ⟨-, rfl⟩ : world.Admits .null .null ∧ restored = .null := by
        simpa [World.Fits, World.FitsAny] using hf
      have hsame : ∀ direction, Converts world (classOf self) call context direction true
          (.primitive .null wrapper) .null .null := fun direction =>
        converts_same fun access depth =>
          Conversion.ofSchema_primitive direction context access depth true .null wrapper
      rw [ho]
      exact ⟨.null, (hsame .serialize).single, (hsame .deserialize).single⟩
    | cons second rest => exact absurd ⟨ho, .inr ⟨rfl, rfl⟩⟩ hm

end Fields

end AvroBindings.Runtime
