import AvroBindings.Proofs.Code.Faults

/-! Code generation with a budget of nested calls. A reference is followed by a call for the
definition that it stands for, which is no step to a smaller schema. The calls end all the same: a
definition is answered by its name, and its fields are not entered. -/

namespace AvroBindings

mutual
/-- How deep unions, arrays and maps stand in one another. The fields of a record do not count. -/
def Schema.nesting : Schema → Nat
  | .union alternatives => Schema.nestingAll alternatives + 1
  | .array _ (some items) _ => items.nesting + 1
  | .map _ (some values) _ => values.nesting + 1
  | _ => 0

def Schema.nestingAll : List Schema → Nat
  | [] => 0
  | schema :: rest => max schema.nesting (Schema.nestingAll rest)
end

namespace Schema

theorem nesting_le_nestingAll {alternative : Schema} {alternatives : List Schema}
    (h : alternative ∈ alternatives) : alternative.nesting ≤ nestingAll alternatives := by
  induction alternatives with
  | nil => cases h
  | cons first rest ih =>
    rw [nestingAll]
    obtain rfl | h := List.mem_cons.1 h
    · exact Nat.le_max_left _ _
    · exact Nat.le_trans (ih h) (Nat.le_max_right _ _)

theorem nesting_lt_of_operand {schema operand : Schema} (h : operand ∈ schema.operands) :
    operand.nesting < schema.nesting := by
  cases schema with
  | union alternatives => exact Nat.lt_succ_of_le (nesting_le_nestingAll h)
  | array before items after =>
    obtain rfl := Option.mem_toList.1 h
    exact Nat.lt_succ_self _
  | map before values after =>
    obtain rfl := Option.mem_toList.1 h
    exact Nat.lt_succ_self _
  | _ => cases h

end Schema

/-- What comes of a computation, if its budget lasts. -/
abbrev Budgeted := ExceptT Error Option

namespace Budgeted

def exhausted {α : Type} : Budgeted α := ExceptT.mk none

def of {α : Type} (x : Except Error α) : Budgeted α := ExceptT.mk (some x)

section Rules

variable {α β : Type}

theorem of_bind {x : Except Error α} {f : α → Budgeted β} {g : α → Except Error β}
    (h : ∀ a, x = .ok a → f a = of (g a)) : (of x >>= f) = of (x >>= g) := by
  cases x with
  | error e => rfl
  | ok a => exact h a rfl

theorem map_of (f : α → β) (x : Except Error α) : f <$> of x = of (f <$> x) := by
  cases x <;> rfl

theorem mapM_of {f : α → Budgeted β} {g : α → Except Error β} {items : List α}
    (h : ∀ item ∈ items, f item = of (g item)) : items.mapM f = of (items.mapM g) := by
  induction items with
  | nil => rfl
  | cons item rest ih =>
    have hr := ih fun other ho => h other (List.mem_cons_of_mem item ho)
    rw [List.mapM_cons, List.mapM_cons, h item List.mem_cons_self, hr]
    exact of_bind fun first _ => of_bind fun others _ => rfl

end Rules

variable (context : Context)

def type : Nat → Schema → Budgeted TypeExpr
  | 0, _ => exhausted
  | budget + 1, .reference name => do
    let definition ← of (context.resolve (.str name))
    type budget definition.schema
  | budget + 1, .union alternatives => do
    let types ← alternatives.mapM (type budget)
    of (TypeExpr.unionOf types)
  | budget + 1, .array _ (some items) _ => .array <$> type budget items
  | budget + 1, .map _ (some values) _ => .index <$> type budget values
  | _ + 1, .enum definition => of (TypeExpr.ofDefinition context.options (.enum definition))
  | _ + 1, .record definition => of (TypeExpr.ofDefinition context.options (.record definition))
  | _ + 1, .primitive name _ => of (.ok (.builtin name.builtin))
  | _ + 1, .array _ none _ => of (.error (.missingAttribute "items"))
  | _ + 1, .map _ none _ => of (.error (.missingAttribute "values"))
  | _ + 1, .unknown value => of (.error (.unknownType value))

def entriesType (budget : Nat) (map : Schema) : Direction → Budgeted TypeExpr
  | .deserialize => type context budget map
  | .serialize => of (.ok .any)

def followed {α : Type} (answer : Schema → Except Error α) : Nat → Schema → Budgeted α
  | 0, _ => exhausted
  | budget + 1, .reference name => do
    let definition ← of (context.resolve (.str name))
    followed answer budget definition.schema
  | _ + 1, schema => of (answer schema)

def tag : Nat → Schema → Budgeted Tag := followed context (Tag.ofSchema context)

def test : Nat → Schema → Budgeted Test := followed context (Test.ofSchema context)

mutual
def conversion (direction : Direction) :
    Nat → Schema → Access → Int → Bool → Budgeted Conversion
  | 0, _, _, _, _ => exhausted
  | budget + 1, .reference name, access, depth, optional => do
    let definition ← of (context.resolve (.str name))
    conversion direction budget definition.schema access depth optional
  | budget + 1, .union [only], access, depth, optional =>
    conversion direction budget only access depth optional
  | budget + 1, .union alternatives, access, depth, optional => do
    let branches ← (Schema.nonNull alternatives).mapM fun alternative =>
      match direction with
      | .deserialize => do
        let tag ← tag context budget alternative
        let body ← conversion .deserialize budget alternative (access.tagged tag) depth false
        return .mk (access.tagged tag) .isDefined (.value body)
      | .serialize => do
        let test ← test context budget alternative
        let answer ← answer budget alternative access depth
        return .mk access test answer
    return .dispatch direction
      (Branch.nullBranches direction optional access alternatives ++ branches)
  | budget + 1, .array _ (some items) _, access, depth, _ =>
    .elements access ⟨.element, depth⟩ items.isMultiUnion <$>
      conversion direction budget items (.bound ⟨.element, depth⟩) (depth + 1) false
  | budget + 1, .map before (some values) after, access, depth, _ => do
    let type ← entriesType context budget (.map before (some values) after) direction
    let body ← conversion direction budget values (.bound ⟨.mapValue, depth⟩) (depth + 1) false
    return .entries access depth type body
  | _ + 1, .primitive .., access, _, _ => of (.ok (.same access))
  | _ + 1, .enum definition, access, _, _ =>
    of (Conversion.ofDefinition direction context.options access (.enum definition))
  | _ + 1, .record definition, access, _, _ =>
    of (Conversion.ofDefinition direction context.options access (.record definition))
  | _ + 1, .array _ none _, _, _, _ => of (.error (.missingAttribute "items"))
  | _ + 1, .map _ none _, _, _, _ => of (.error (.missingAttribute "values"))
  | _ + 1, .unknown value, _, _, _ => of (.error (.unknownType value))

def answer : Nat → Schema → Access → Int → Budgeted Answer
  | 0, _, _, _ => exhausted
  | budget + 1, .reference name, access, depth => do
    let definition ← of (context.resolve (.str name))
    answer budget definition.schema access depth
  | budget + 1, alternative, access, depth => do
    let tag ← tag context budget alternative
    .wrapped tag <$> conversion .serialize budget alternative access depth false
end

/-- A budget that lasts for everything that is generated for a type position. -/
structure Suffices (budget : Nat) (schema : Schema) : Prop where
  type : type context budget schema = of (TypeExpr.ofSchema context schema)
  tag : tag context budget schema = of (Tag.ofSchema context schema)
  test : test context budget schema = of (Test.ofSchema context schema)
  conversion : ∀ direction access depth optional,
    conversion context direction budget schema access depth optional =
      of (Conversion.ofSchema direction context schema access depth optional)
  answer : ∀ access depth, answer context budget schema access depth =
    of (Answer.wrap context schema access depth)

variable {context} {budget : Nat} {schema : Schema}

theorem type_eq (h : schema.nesting + 2 ≤ budget) :
    type context budget schema = of (TypeExpr.ofSchema context schema) := by
  induction schema using Schema.byChildren generalizing budget with
  | step schema ih =>
    obtain ⟨rest, rfl⟩ : ∃ rest, budget = rest + 2 := ⟨budget - 2, by omega⟩
    have hi : ∀ operand ∈ schema.operands,
        type context (rest + 1) operand = of (TypeExpr.ofSchema context operand) := by
      intro operand ho
      have hn := Schema.nesting_lt_of_operand ho
      exact ih operand (schema.operands_subset_children ho) (by omega)
    cases schema with
    | reference name =>
      refine of_bind fun definition _ => ?_
      cases definition <;> rfl
    | union alternatives =>
      have hm : ∀ alternative ∈ alternatives, _ := hi
      rw [type, mapM_of hm, TypeExpr.ofSchema, TypeExpr.ofSchemas_eq]
      exact of_bind fun types _ => rfl
    | array before items after =>
      cases items with
      | none => rfl
      | some items =>
        rw [type, hi items (by simp), map_of]
        rfl
    | map before values after =>
      cases values with
      | none => rfl
      | some values =>
        rw [type, hi values (by simp), map_of]
        rfl
    | _ => rfl

theorem entriesType_eq {before after : Attributes} {values : Schema}
    (h : values.nesting + 3 ≤ budget) (direction : Direction) :
    entriesType context budget (.map before (some values) after) direction =
      of (Conversion.entriesType context values direction) := by
  cases direction with
  | deserialize => exact type_eq (by rw [Schema.nesting]; exact h)
  | serialize => rfl

theorem followed_eq {α : Type} {answer : Schema → Except Error α}
    (ha : ∀ name, answer (.reference name) =
      context.resolve (.str name) >>= fun definition => answer definition.schema)
    (h : 2 ≤ budget) : followed context answer budget schema = of (answer schema) := by
  obtain ⟨rest, rfl⟩ := Nat.exists_eq_add_of_le' h
  cases schema with
  | reference name =>
    rw [ha]
    refine of_bind fun definition _ => ?_
    cases definition <;> rfl
  | _ => rfl

theorem tag_eq (h : 2 ≤ budget) :
    tag context budget schema = of (Tag.ofSchema context schema) := by
  refine followed_eq (fun name => bind_congr fun definition => ?_) h
  cases definition <;> rfl

theorem test_eq (h : 2 ≤ budget) :
    test context budget schema = of (Test.ofSchema context schema) := by
  refine followed_eq (fun name => bind_congr fun definition => ?_) h
  cases definition <;> rfl

section Answer

variable {access : Access} {depth : Int}

theorem answer_definition (h : 2 ≤ budget) (definition : Definition) :
    answer context budget definition.schema access depth =
      of (Answer.wrap context definition.schema access depth) := by
  obtain ⟨rest, rfl⟩ := Nat.exists_eq_add_of_le' h
  cases definition <;> exact of_bind fun tag _ => map_of ..

theorem wrap_reference (name : String) :
    Answer.wrap context (.reference name) access depth = context.resolve (.str name) >>=
      fun definition => Answer.wrap context definition.schema access depth := by
  rw [Answer.wrap, Tag.ofSchema, Conversion.serialize]
  cases context.resolve (.str name) with
  | error e => rfl
  | ok definition => cases definition <;> rfl

theorem answer_eq (h : 2 ≤ budget)
    (hc : conversion context .serialize budget schema access depth false =
      of (Conversion.ofSchema .serialize context schema access depth false)) :
    answer context (budget + 1) schema access depth =
      of (Answer.wrap context schema access depth) := by
  by_cases hr : ∃ name, schema = .reference name
  · obtain ⟨name, rfl⟩ := hr
    rw [answer, wrap_reference]
    exact of_bind fun definition _ => answer_definition h definition
  · rw [answer, tag_eq h, hc]
    · exact of_bind fun tag _ => map_of ..
    · exact fun name hn => hr ⟨name, hn⟩

end Answer

def branch (context : Context) (direction : Direction) (budget : Nat) (access : Access) (depth : Int)
    (alternative : Schema) : Budgeted Branch :=
  match direction with
  | .deserialize => do
    let tag ← tag context budget alternative
    let body ←
      conversion context .deserialize budget alternative (access.tagged tag) depth false
    return .mk (access.tagged tag) .isDefined (.value body)
  | .serialize => do
    let test ← test context budget alternative
    let answer ← answer context budget alternative access depth
    return .mk access test answer

theorem branch_eq {direction : Direction} {alternative : Schema} {access : Access} {depth : Int}
    (h : 2 ≤ budget) (hc : ∀ own ≥ budget, ∀ access,
      conversion context direction own alternative access depth false =
        of (Conversion.ofSchema direction context alternative access depth false)) :
    branch context direction (budget + 1) access depth alternative =
      of (Branch.ofAlternative direction context access depth alternative) := by
  have ht : 2 ≤ budget + 1 := by omega
  cases direction with
  | deserialize =>
    dsimp only [branch, Branch.ofAlternative]
    rw [tag_eq ht]
    refine of_bind fun tag _ => ?_
    rw [hc (budget + 1) (by omega)]
    exact of_bind fun body _ => rfl
  | serialize =>
    dsimp only [branch, Branch.ofAlternative]
    rw [test_eq ht]
    refine of_bind fun test _ => ?_
    rw [answer_eq h (hc budget (by omega) access)]
    refine (of_bind fun answer _ => rfl).trans (congrArg of ?_)
    rw [Answer.wrap, bind_assoc]
    simp only [bind_assoc, pure_bind]
    rfl

/-- Twice the nesting of a schema is enough: an alternative of a union that is serialized takes a
call for its wrapper and one for its value. -/
theorem conversion_eq {direction : Direction} (h : 2 * schema.nesting + 2 ≤ budget)
    (access : Access) (depth : Int) (optional : Bool) :
    conversion context direction budget schema access depth optional =
      of (Conversion.ofSchema direction context schema access depth optional) := by
  induction schema using Schema.byChildren generalizing budget access depth optional with
  | step schema ih =>
    obtain ⟨rest, rfl⟩ : ∃ rest, budget = rest + 2 := ⟨budget - 2, by omega⟩
    have hn : ∀ operand ∈ schema.operands, 2 * operand.nesting + 2 ≤ rest := by
      intro operand ho
      have hn := Schema.nesting_lt_of_operand ho
      omega
    have hi : ∀ operand ∈ schema.operands, ∀ {budget : Nat}, rest ≤ budget →
        ∀ access depth optional, conversion context direction budget operand access depth optional =
          of (Conversion.ofSchema direction context operand access depth optional) :=
      fun operand ho _ hb =>
        ih operand (schema.operands_subset_children ho) (Nat.le_trans (hn operand ho) hb)
    cases schema with
    | reference name =>
      rw [conversion, Conversion.ofSchema_reference]
      refine of_bind fun definition _ => ?_
      cases definition <;> rfl
    | union alternatives =>
      by_cases hs : ∃ only, alternatives = [only]
      · obtain ⟨only, rfl⟩ := hs
        rw [conversion, hi only (by simp) (by omega), Conversion.ofSchema_single]
      · have hl : alternatives.length ≠ 1 := fun hl => hs (List.length_eq_one_iff.1 hl)
        rw [conversion, Conversion.ofSchema_union _ _ _ _ _ hl]
        · refine (congrArg (· >>= _) (mapM_of fun alternative ha => ?_)).trans
            (of_bind fun branches _ => rfl)
          have ho : alternative ∈ (Schema.union alternatives).operands := (List.mem_filter.1 ha).1
          have hr := hn alternative ho
          have hb : branch context direction (rest + 1) access depth alternative =
              of (Branch.ofAlternative direction context access depth alternative) :=
            branch_eq (by omega) fun own hb access => hi alternative ho hb access depth false
          cases direction <;> exact hb
        · exact fun only ho => hs ⟨only, ho⟩
    | array before items after =>
      cases items with
      | none => cases direction <;> rfl
      | some items =>
        rw [conversion, hi items (by simp) (by omega), map_of, Conversion.ofSchema_array]
        rfl
    | map before values after =>
      cases values with
      | none => cases direction <;> rfl
      | some values =>
        have ho : values ∈ (Schema.map before (some values) after).operands := by simp
        have hv := @hi values ho (rest + 1) (by omega)
        have hr := hn values ho
        rw [conversion, Conversion.ofSchema_map, entriesType_eq (by omega)]
        refine of_bind fun type _ => ?_
        rw [hv]
        exact of_bind fun body _ => rfl
    | _ => cases direction <;> rfl

theorem suffices_definition (h : 2 ≤ budget) (definition : Definition) :
    Suffices context budget definition.schema := by
  have hn : definition.schema.nesting = 0 := by cases definition <;> rfl
  exact {
    type := type_eq (by omega)
    tag := tag_eq h
    test := test_eq h
    conversion := fun direction => conversion_eq (by omega)
    answer := fun access depth => answer_definition h definition }

theorem suffices_nesting (h : 2 * schema.nesting + 3 ≤ budget) :
    Suffices context budget schema := by
  obtain ⟨rest, rfl⟩ : ∃ rest, budget = rest + 1 := ⟨budget - 1, by omega⟩
  exact {
    type := type_eq (by omega)
    tag := tag_eq (by omega)
    test := test_eq (by omega)
    conversion := fun direction => conversion_eq (by omega)
    answer := fun access depth =>
      answer_eq (by omega) (conversion_eq (by omega) access depth false) }

/-- Twice the nesting of a schema and three more are enough nested calls for all that is generated
for it, whatever the table holds and however the definitions in it refer to each other. Once a
reference has been followed, two calls are enough. -/
theorem calls_bounded (context : Context) :
    (∀ schema : Schema, ∀ budget ≥ 2 * schema.nesting + 3, Suffices context budget schema) ∧
    ∀ definition : Definition, ∀ budget ≥ 2, Suffices context budget definition.schema :=
  ⟨fun _ _ => suffices_nesting, fun definition _ h => suffices_definition h definition⟩

def cyclic : Context where
  registry := ⟨["List", "Node"], []⟩
  table :=
    let definition (name field : String) (type : Schema) : Json × Definition :=
      (.str name, .record (.mk [("type", .str "record"), ("name", .str name)]
        (.listed [.mk [("name", .str field)] (some type) []]) []))
    [definition "List" "nodes" (.array [("type", .str "array")] (some (.reference "Node")) []),
      definition "Node" "rest" (.union [.primitive .null none, .reference "List"])]

theorem calls_bounded_cyclic :
    ∃ conversion : Conversion, Budgeted.conversion cyclic .serialize 5
      (.union [.primitive .null none, .reference "List"]) (.field "rest") 0 true =
        of (.ok conversion) := by
  have hn : 5 ≥ 2 * (Schema.union [.primitive .null none, .reference "List"]).nesting + 3 := by
    decide
  exact ⟨_, ((calls_bounded cyclic).1 _ 5 hn).conversion .serialize (.field "rest") 0 true⟩

end Budgeted

end AvroBindings
