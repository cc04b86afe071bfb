import AvroBindings.Proofs.Runtime.Shapes

/-! Unions. A value is written under the tag of the first alternative whose test it passes, and read
by the first alternative of that tag. Both convert as the alternative does that the value is of. -/

namespace AvroBindings.Runtime

variable {κ ν : Type} {world : World κ ν} {own : κ} [DecidableEq κ]
  {call : κ → Direction → Value κ ν → Except Failure (Value κ ν)} {context : Context}
  {direction : Direction} {optional : Bool} {scope : Scope κ ν} {access : Access}
  {value wire restored : Value κ ν}

def Rejects (world : World κ ν) (own : κ) (scope : Scope κ ν) : Branch → Prop
  | .mk access test _ =>
    ∃ value, world.read own scope access = .ok value ∧ world.passes own value test = false

theorem evalBranches_append {before : List Branch}
    (h : ∀ branch ∈ before, Rejects world own scope branch) (rest : List Branch) :
    world.evalBranches own call scope direction (before ++ rest) =
      world.evalBranches own call scope direction rest := by
  induction before with
  | nil => rfl
  | cons branch before ih =>
    have hr := ih fun other ho => h other (List.mem_cons_of_mem branch ho)
    obtain ⟨access, test, answer⟩ := branch
    obtain ⟨value, hv, ht⟩ := h _ List.mem_cons_self
    rw [List.cons_append, World.evalBranches, hv, Traversal.ok_bind, ht, if_neg Bool.false_ne_true]
    exact hr

theorem evalBranches_passes {test : Test} {answer : Answer}
    (hv : world.read own scope access = .ok value) (ht : world.passes own value test = true)
    (rest : List Branch) :
    world.evalBranches own call scope direction (.mk access test answer :: rest) =
      world.evalAnswer own call scope answer := by
  rw [World.evalBranches, hv, Traversal.ok_bind, if_pos ht]

theorem rejects_nullBranches {alternatives : List Schema} (hg : value.IsGiven)
    (hv : world.read own scope access = .ok value) :
    ∀ branch ∈ Branch.nullBranches direction optional access alternatives,
      Rejects world own scope branch := by
  intro branch hm
  have hn : world.passes own value .isNull = false :=
    Bool.eq_false_iff.2 fun h => hg.1 (World.passes_isNull.1 h)
  have hu : world.passes own value .isNullOrUndefined = false :=
    Bool.eq_false_iff.2 fun h => (World.passes_isNullOrUndefined.1 h).elim hg.1 hg.2
  unfold Branch.nullBranches at hm
  split at hm
  next =>
    cases List.mem_singleton.1 hm
    cases optional with
    | false => cases direction <;> exact ⟨value, hv, hn⟩
    | true => cases direction <;> exact ⟨value, hv, hu⟩
  next => cases hm

section Union

variable {alternatives before after : List Schema} {first : Schema} {tag : Tag}

theorem exists_branches {depth : Int} {conversion : Conversion} (hl : alternatives.length ≠ 1)
    (h : Conversion.ofSchema direction context (.union alternatives) access depth optional =
      .ok conversion) :
    ∃ branches, (Schema.nonNull alternatives).mapM
        (Branch.ofAlternative direction context access depth) = .ok branches ∧
      conversion = .dispatch direction
        (Branch.nullBranches direction optional access alternatives ++ branches) := by
  rw [Conversion.ofSchema_union direction context access depth optional hl] at h
  obtain ⟨branches, hb, h⟩ := Traversal.bind_eq_ok_iff.1 h
  cases h
  exact ⟨branches, hb, rfl⟩

variable (call) in
/-- A value that the branches before an alternative reject comes to the branch of it. -/
theorem eval_union {depth : Int} {conversion : Conversion} (hl : alternatives.length ≠ 1)
    (h : Conversion.ofSchema direction context (.union alternatives) access depth optional =
      .ok conversion)
    (hs : Schema.nonNull alternatives = before ++ first :: after) (hg : value.IsGiven)
    (hv : world.read own scope access = .ok value)
    (hb : ∀ other ∈ before, ∀ branch,
      Branch.ofAlternative direction context access depth other = .ok branch →
      Rejects world own scope branch) :
    ∃ branch rest, Branch.ofAlternative direction context access depth first = .ok branch ∧
      world.eval own call scope conversion =
        world.evalBranches own call scope direction (branch :: rest) := by
  obtain ⟨branches, hm, rfl⟩ := exists_branches hl h
  rw [hs] at hm
  obtain ⟨skipped, branch, rest, rfl, hi, hf⟩ := Traversal.mapM_append_cons hm
  have hr : ∀ branch ∈ skipped, Rejects world own scope branch := by
    intro branch hm
    obtain ⟨other, ho, he⟩ := Traversal.of_mem_mapM hi hm
    exact hb other ho branch he
  refine ⟨branch, rest, hf, ?_⟩
  rw [World.eval, evalBranches_append (rejects_nullBranches hg hv), evalBranches_append hr]

theorem converts_serialize (hl : alternatives.length ≠ 1)
    (hr : ∀ access depth, ∃ conversion, Conversion.ofSchema .serialize context
      (.union alternatives) access depth optional = .ok conversion)
    (hs : Schema.nonNull alternatives = before ++ first :: after) (hg : value.IsGiven)
    (ha : world.Accepts own context value first)
    (hb : ∀ other ∈ before, ¬world.Accepts own context value other)
    (ht : Tag.ofSchema context first = .ok tag)
    (h : Converts world own call context .serialize false first value wire) :
    Converts world own call context .serialize optional (.union alternatives) value
      (.object none [(world.key own tag, wire)]) := by
  intro scope access depth hd hv
  obtain ⟨conversion, ho⟩ := hr access depth
  have hj : ∀ other ∈ before, ∀ branch,
      Branch.ofAlternative .serialize context access depth other = .ok branch →
      Rejects world own scope branch := by
    intro other hm branch hb'
    obtain ⟨test, htest, hb'⟩ := Traversal.bind_eq_ok_iff.1 hb'
    obtain ⟨_, -, hb'⟩ := Traversal.bind_eq_ok_iff.1 hb'
    obtain ⟨_, -, hb'⟩ := Traversal.bind_eq_ok_iff.1 hb'
    cases hb'
    exact ⟨value, hv, Bool.eq_false_iff.2 fun hp => hb other hm ⟨test, htest, hp⟩⟩
  obtain ⟨branch, rest, hf, he⟩ := eval_union call hl ho hs hg hv hj
  obtain ⟨test, htest, hp⟩ := ha
  obtain ⟨inner, hi, hw⟩ := h scope access depth hd hv
  refine ⟨conversion, ho, ?_⟩
  unfold Branch.ofAlternative at hf
  rw [htest, ht, Traversal.ok_bind, Traversal.ok_bind, hi] at hf
  cases hf
  rw [he, evalBranches_passes hv hp, World.evalAnswer, hw]
  rfl

theorem converts_deserialize (hl : alternatives.length ≠ 1)
    (hr : ∀ access depth, ∃ conversion, Conversion.ofSchema .deserialize context
      (.union alternatives) access depth optional = .ok conversion)
    (hs : Schema.nonNull alternatives = before ++ first :: after) (hw : wire ≠ .undefined)
    (ht : Tag.ofSchema context first = .ok tag)
    (hb : ∀ other ∈ before, ∀ another, Tag.ofSchema context other = .ok another →
      world.key own another ≠ world.key own tag)
    (h : Converts world own call context .deserialize false first wire restored) :
    Converts world own call context .deserialize optional (.union alternatives)
      (.object none [(world.key own tag, wire)]) restored := by
  intro scope access depth hd hv
  obtain ⟨conversion, ho⟩ := hr access depth
  have hread : ∀ another, world.read own scope (access.tagged another) =
      .ok (if world.key own tag = world.key own another then wire else .undefined) := by
    intro another
    rw [World.read, hv]
    rfl
  have hj : ∀ other ∈ before, ∀ branch,
      Branch.ofAlternative .deserialize context access depth other = .ok branch →
      Rejects world own scope branch := by
    intro other hm branch hb'
    obtain ⟨another, ha, hb'⟩ := Traversal.bind_eq_ok_iff.1 hb'
    obtain ⟨_, -, hb'⟩ := Traversal.bind_eq_ok_iff.1 hb'
    cases hb'
    refine ⟨_, hread another, ?_⟩
    rw [if_neg (hb other hm another ha).symm]
    rfl
  have hg : (Value.object none [(world.key own tag, wire)]).IsGiven := by simp [Value.IsGiven]
  obtain ⟨branch, rest, hf, he⟩ := eval_union call hl ho hs hg hv hj
  have hown : world.read own scope (access.tagged tag) = .ok wire := by
    rw [hread tag, if_pos rfl]
  obtain ⟨inner, hi, hx⟩ := h scope (access.tagged tag) depth hd hown
  refine ⟨conversion, ho, ?_⟩
  unfold Branch.ofAlternative at hf
  rw [ht, Traversal.ok_bind, hi] at hf
  cases hf
  rw [he, evalBranches_passes hown (World.passes_isDefined.2 hw), World.evalAnswer, hx]

theorem converts_null (hl : alternatives.length ≠ 1) (hn : alternatives.any Schema.isNull)
    (hr : ∀ access depth, ∃ conversion, Conversion.ofSchema direction context
      (.union alternatives) access depth false = .ok conversion) :
    Converts world own call context direction false (.union alternatives) .null .null := by
  intro scope access depth hd hv
  obtain ⟨conversion, ho⟩ := hr access depth
  obtain ⟨branches, -, rfl⟩ := exists_branches hl ho
  refine ⟨_, ho, ?_⟩
  unfold Branch.nullBranches
  rw [World.eval, if_pos hn, List.singleton_append]
  cases direction <;> exact evalBranches_passes hv (World.passes_isNull.2 rfl) branches

def missing : Direction → Value κ ν
  | .serialize => .null
  | .deserialize => .undefined

theorem converts_missing (hl : alternatives.length ≠ 1) (hn : alternatives.any Schema.isNull)
    (hr : ∀ access depth, ∃ conversion, Conversion.ofSchema direction context
      (.union alternatives) access depth true = .ok conversion)
    (hv : value = .null ∨ value = .undefined) :
    Converts world own call context direction true (.union alternatives) value
      (missing direction) := by
  intro scope access depth hd hread
  obtain ⟨conversion, ho⟩ := hr access depth
  obtain ⟨branches, -, rfl⟩ := exists_branches hl ho
  have hp : world.passes own value .isNullOrUndefined := World.passes_isNullOrUndefined.2 hv
  refine ⟨_, ho, ?_⟩
  unfold Branch.nullBranches
  rw [World.eval, if_pos hn, List.singleton_append]
  cases direction <;> exact evalBranches_passes hread hp branches

end Union

section Inverse

variable {records : List Record} {classOf : Record → κ} {self : Record}

/-- A value is written to something, and read back from it. -/
def Inverse (world : World κ ν) (own : κ)
    (call : κ → Direction → Value κ ν → Except Failure (Value κ ν)) (context : Context)
    (optional : Bool) (schema : Schema) (value restored : Value κ ν) : Prop :=
  ∃ wire, wire ≠ .undefined ∧
    Converts world own call context .serialize optional schema value wire ∧
    Converts world own call context .deserialize optional schema wire restored

/-- The conversions of a union are inverse on a value, if those of an alternative are. -/
theorem Inverse.union {alternatives : List Schema} {alternative : Schema}
    (hw : world.Setting context records classOf) (hs : self ∈ records)
    (hr : Ready context records (.union alternatives)) (hl : alternatives.length ≠ 1)
    (hm : alternative ∈ alternatives) (hn : alternative.isNull = false)
    (ha : world.Accepts (classOf self) context value alternative)
    (h : Inverse world (classOf self) call context false alternative value restored) :
    Inverse world (classOf self) call context optional (.union alternatives) value restored := by
  have hex : ∀ direction access depth, ∃ conversion, Conversion.ofSchema direction context
      (.union alternatives) access depth optional = .ok conversion :=
    fun direction access depth => hr.exists_ofSchema hw.proper direction access depth optional
  have hc := hr.coherent alternatives (Schema.self_mem_constituents _)
  obtain ⟨wire, hu, hser, hdes⟩ := h
  have hnn : alternative ∈ Schema.nonNull alternatives := Schema.mem_nonNull.2 ⟨hm, hn⟩
  obtain ⟨hp, shape, hshape⟩ := exists_shaped_alternative hr hl hnn
  obtain ⟨hv, hg⟩ := hshape.of_accepts hw hs hp ha
  -- The alternative that the value is written by.
  obtain ⟨before, writer, after, hsplit, hwriter, hbefore⟩ :=
    Traversal.exists_first ⟨alternative, hnn, ha⟩
  have hmw : writer ∈ Schema.nonNull alternatives := by simp [hsplit]
  obtain ⟨hpw, other, hshapew⟩ := exists_shaped_alternative hr hl hmw
  obtain ⟨hvw, -⟩ := hshapew.of_accepts hw hs hpw hwriter
  obtain rfl : shape = other := hv.symm.trans hvw
  have hcw := hc alternative hm writer (Schema.mem_nonNull.1 hmw).1
  have hserw := hser.congr hshape hshapew hw hs hp hpw hcw
  have hdesw := hdes.congr hshape hshapew hw hs hp hpw hcw
  obtain ⟨tag, htag, hname⟩ := hshapew.exists_tag hw hs hpw
  -- The alternative that it is read by.
  obtain ⟨skipped, reader, rest, hsplitr, ⟨another, hanother, hkey⟩, hskipped⟩ :=
    Traversal.exists_first (p := fun other => ∃ another, Tag.ofSchema context other = .ok another ∧
      world.key (classOf self) another = world.key (classOf self) tag) ⟨writer, hmw, tag, htag, rfl⟩
  have hmr : reader ∈ Schema.nonNull alternatives := by simp [hsplitr]
  obtain ⟨hpr, shaper, hshaper⟩ := exists_shaped_alternative hr hl hmr
  obtain ⟨found, hfound, hnamer⟩ := hshaper.exists_tag hw hs hpr
  rw [hanother] at hfound
  cases hfound
  rw [hkey, ← hname] at hnamer
  have hdesr := hdesw.of_eq (hc writer (Schema.mem_nonNull.1 hmw).1 reader
    (Schema.mem_nonNull.1 hmr).1 hnamer.symm .deserialize)
  have hwrites := converts_serialize hl (hex .serialize) hsplit hg hwriter hbefore htag hserw
  have hreads := converts_deserialize hl (hex .deserialize) hsplitr hu hanother
    (fun other ho another ha he => hskipped other ho ⟨another, ha, he.trans hkey⟩) hdesr
  rw [hkey] at hreads
  exact ⟨_, by simp, hwrites, hreads⟩

end Inverse

end AvroBindings.Runtime
