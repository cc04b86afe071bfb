import AvroBindings.Proofs.Runtime.Value
import AvroBindings.Proofs.Traversal

/-! What generated methods do when they run. They run as the trees that their texts are read as, with
the usual meaning of the constructs: variables are looked up by their names, the innermost first, the
alternatives of a union are tried in order, and the entries of a map are gone through by its keys.
A class name stands for a class, and methods are called with fuel, of which more changes no result.
Names of variables tell roles and depths apart, so that what a conversion binds hides no variable of
the conversions around it. -/

namespace AvroBindings

namespace Runtime

/-- The surroundings of generated code: numbers with a test for integers, and classes as they are
declared. A class name in the methods of a class stands for some class. -/
structure World (κ ν : Type) where
  isInteger : ν → Bool
  declaration : κ → ClassDeclaration
  named : κ → String → κ

variable {κ ν : Type}

abbrev Scope (κ ν : Type) := List (String × Value κ ν)

namespace Scope

def valueOf (name : String) : Scope κ ν → Except Failure (Value κ ν)
  | [] => .error (.thrown "ReferenceError")
  | entry :: rest => if entry.1 = name then .ok entry.2 else valueOf name rest

def bind (scope : Scope κ ν) (binding : Binding) (value : Value κ ν) : Scope κ ν :=
  (binding.text, value) :: scope

def ofInput (input : Value κ ν) : Scope κ ν := [("input", input)]

end Scope

namespace World

variable (world : World κ ν) (own : κ)

def key : Tag → String
  | .fullName className => (world.declaration (world.named own className)).fullName
  | .literal text => text

def read (scope : Scope κ ν) : Access → Except Failure (Value κ ν)
  | .given text => scope.valueOf text
  | .field name => do (← scope.valueOf "input").property name
  | .bound binding => scope.valueOf binding.text
  | .tagged access tag => do (← read scope access).property (world.key own tag)

variable [DecidableEq κ]

def passes (value : Value κ ν) : Test → Bool
  | .isNull => value.isNull
  | .isNullOrUndefined => value.isNull || value.isUndefined
  | .isDefined => !value.isUndefined
  | .hasType name => value.typeName == name
  | .isInteger =>
    match value with
    | .number number => world.isInteger number
    | _ => false
  | .isBuffer =>
    match value with
    | .buffer _ => true
    | _ => false
  | .isArray =>
    match value with
    | .array _ => true
    | _ => false
  | .isInstance className =>
    match value with
    | .object (some other) _ => other == world.named own className
    | _ => false
  | .isOneOf symbols =>
    value.typeName == "string" &&
      match value with
      | .string text => symbols.contains text
      | _ => false
  | .isPlainObject => value.typeName == "object" && !value.isNull && value.isPlain

section Tests

variable {world : World κ ν} {own : κ} {value : Value κ ν}

attribute [local simp] passes

theorem passes_isNull : world.passes own value .isNull ↔ value = .null := by
  cases value <;> simp [Value.isNull]

theorem passes_isNullOrUndefined :
    world.passes own value .isNullOrUndefined ↔ value = .null ∨ value = .undefined := by
  cases value <;> simp [Value.isNull, Value.isUndefined]

theorem passes_isDefined : world.passes own value .isDefined ↔ value ≠ .undefined := by
  cases value <;> simp [Value.isUndefined]

theorem passes_isArray :
    world.passes own value .isArray ↔ ∃ items, value = .array items := by
  cases value <;> simp

theorem passes_isInstance {className : String} :
    world.passes own value (.isInstance className) ↔
      ∃ properties, value = .object (some (world.named own className)) properties := by
  rcases value with _ | _ | _ | _ | _ | _ | _ | ⟨_ | other, properties⟩ <;> simp

theorem passes_isOneOf {symbols : List String} :
    world.passes own value (.isOneOf symbols) ↔ ∃ symbol ∈ symbols, value = .string symbol := by
  cases value <;> simp [Value.typeName]

theorem passes_isPlainObject :
    world.passes own value .isPlainObject ↔ ∃ properties, value = .object none properties := by
  rcases value with _ | _ | _ | _ | _ | _ | _ | ⟨_ | other, properties⟩ <;>
    simp [Value.typeName, Value.isNull, Value.isPlain]

end Tests

section Eval

variable (call : κ → Direction → Value κ ν → Except Failure (Value κ ν))

mutual
def eval (scope : Scope κ ν) : Conversion → Except Failure (Value κ ν)
  | .same access => world.read own scope access
  | .call className direction access => do
    call (world.named own className) direction (← world.read own scope access)
  | .elements access element _ body => do
    let items ← (← world.read own scope access).elements
    return .array (← items.mapM fun item => eval (scope.bind element item) body)
  | .entries access depth _ body => do
    let keys ← (← world.read own scope access).keys
    let scope := scope.bind ⟨.keys, depth⟩ (.array (keys.map .string))
    let properties ← Properties.collect id (fun output key => do
      let scope := (scope.bind ⟨.output, depth⟩ (.object none output)).bind ⟨.mapKey, depth⟩
        (.string key)
      let value ← (← world.read own scope access).property key
      eval (scope.bind ⟨.mapValue, depth⟩ value) body) keys
    return .object none properties
  | .dispatch direction branches => evalBranches scope direction branches

def evalBranches (scope : Scope κ ν) (direction : Direction) :
    List Branch → Except Failure (Value κ ν)
  | [] => .error (.thrown direction.failure)
  | .mk access test answer :: rest => do
    let value ← world.read own scope access
    if world.passes own value test then evalAnswer scope answer
    else evalBranches scope direction rest

def evalAnswer (scope : Scope κ ν) : Answer → Except Failure (Value κ ν)
  | .undefined => .ok .undefined
  | .null => .ok .null
  | .value conversion => eval scope conversion
  | .wrapped tag conversion => do
    return .object none [(world.key own tag, ← eval scope conversion)]
end

def assigned (input : Value κ ν) (assignments : List Assignment) :
    Except Failure (Properties κ ν) :=
  Properties.collect Assignment.name
    (fun _ assignment => world.eval own call (Scope.ofInput input) assignment.value) assignments

/-- The instance that the constructor of a class makes of an object. -/
def construct (input : Value κ ν) : Except Failure (Value κ ν) := do
  let properties ← Properties.collect Property.name (fun _ property => input.property property.name)
    (world.declaration own).properties
  return .object (some own) properties

/-- A method of a class, called on a value. The class name in it stands for the class itself. -/
def run (direction : Direction) (input : Value κ ν) : Except Failure (Value κ ν) :=
  match direction with
  | .deserialize => do
    let object ← world.assigned own call input (world.declaration own).deserializer.assignments
    world.construct own (.object none object)
  | .serialize => do
    let object ← world.assigned own call input (world.declaration own).serializer.assignments
    return .object none object

end Eval

/-- A call of a method, with fuel for the calls below it. -/
def call : Nat → κ → Direction → Value κ ν → Except Failure (Value κ ν)
  | 0, _, _, _ => .error .undetermined
  | fuel + 1, own, direction, input => world.run own (call fuel) direction input

/-- A method returns a value, with enough fuel. -/
def Returns (own : κ) (direction : Direction) (input output : Value κ ν) : Prop :=
  ∃ fuel, world.call fuel own direction input = .ok output

end World

variable {α : Type}

/-- A computation that succeeds still does, with the same result. -/
def Below (left right : Except Failure α) : Prop := ∀ a, left = .ok a → right = .ok a

namespace Below

theorem refl (x : Except Failure α) : Below x x := fun _ h => h

theorem bind {β : Type} {x y : Except Failure α} {f g : α → Except Failure β} (h : Below x y)
    (hf : ∀ a, Below (f a) (g a)) : Below (x >>= f) (y >>= g) := by
  intro b hb
  obtain ⟨a, ha, hb⟩ := Traversal.bind_eq_ok_iff.1 hb
  rw [h a ha]
  exact hf a b hb

theorem mapM {β : Type} {f g : α → Except Failure β} (h : ∀ a, Below (f a) (g a))
    (items : List α) : Below (items.mapM f) (items.mapM g) := by
  induction items with
  | nil => exact refl _
  | cons item rest ih =>
    rw [List.mapM_cons, List.mapM_cons]
    exact (h item).bind fun first => ih.bind fun others => refl _

theorem collect {name : α → String}
    {value more : Properties κ ν → α → Except Failure (Value κ ν)}
    (h : ∀ properties item, Below (value properties item) (more properties item))
    (items : List α) :
    Below (Properties.collect name value items) (Properties.collect name more items) := by
  unfold Properties.collect
  generalize ([] : Properties κ ν) = seen
  induction items generalizing seen with
  | nil => exact refl _
  | cons item rest ih =>
    rw [List.foldlM_cons, List.foldlM_cons]
    exact bind (bind (h seen item) fun result => refl _) ih

end Below

namespace World

variable (world : World κ ν) (own : κ) [DecidableEq κ]
  {call more : κ → Direction → Value κ ν → Except Failure (Value κ ν)}

mutual
theorem eval_mono (h : ∀ own direction input,
    Below (call own direction input) (more own direction input)) (scope : Scope κ ν)
    (conversion : Conversion) :
    Below (world.eval own call scope conversion) (world.eval own more scope conversion) := by
  cases conversion with
  | same access => exact Below.refl _
  | call className direction access =>
    exact (Below.refl (world.read own scope access)).bind fun input => h _ direction input
  | elements access element braced body =>
    exact (Below.refl _).bind fun list => (Below.refl list.elements).bind fun items =>
      (Below.mapM (fun item => eval_mono h (scope.bind element item) body) items).bind
        fun results => Below.refl _
  | entries access depth type body =>
    refine (Below.refl _).bind fun list => (Below.refl list.keys).bind fun keys => ?_
    refine (Below.collect (fun output key => ?_) keys).bind fun properties => Below.refl _
    exact (Below.refl _).bind fun list => (Below.refl _).bind fun value => eval_mono h _ body
  | dispatch direction branches => exact evalBranches_mono h scope direction branches

theorem evalBranches_mono (h : ∀ own direction input,
    Below (call own direction input) (more own direction input)) (scope : Scope κ ν)
    (direction : Direction) (branches : List Branch) :
    Below (world.evalBranches own call scope direction branches)
      (world.evalBranches own more scope direction branches) := by
  cases branches with
  | nil => exact Below.refl _
  | cons branch rest =>
    obtain ⟨access, test, answer⟩ := branch
    refine (Below.refl (world.read own scope access)).bind fun value => ?_
    cases world.passes own value test with
    | true => exact evalAnswer_mono h scope answer
    | false => exact evalBranches_mono h scope direction rest

theorem evalAnswer_mono (h : ∀ own direction input,
    Below (call own direction input) (more own direction input)) (scope : Scope κ ν)
    (answer : Answer) :
    Below (world.evalAnswer own call scope answer) (world.evalAnswer own more scope answer) := by
  cases answer with
  | undefined => exact Below.refl _
  | null => exact Below.refl _
  | value conversion => exact eval_mono h scope conversion
  | wrapped tag conversion =>
    exact (eval_mono h scope conversion).bind fun value => Below.refl _
end

theorem run_mono (h : ∀ own direction input,
    Below (call own direction input) (more own direction input)) (direction : Direction)
    (input : Value κ ν) :
    Below (world.run own call direction input) (world.run own more direction input) := by
  have ha : ∀ assignments : List Assignment, Below (world.assigned own call input assignments)
      (world.assigned own more input assignments) :=
    Below.collect fun _ assignment => world.eval_mono own h _ assignment.value
  cases direction with
  | deserialize => exact (ha _).bind fun object => Below.refl _
  | serialize => exact (ha _).bind fun object => Below.refl _

theorem call_succ (fuel : Nat) : ∀ (own : κ) (direction : Direction) (input : Value κ ν),
    Below (world.call fuel own direction input) (world.call (fuel + 1) own direction input) := by
  induction fuel with
  | zero =>
    intro own direction input output h
    cases h
  | succ fuel ih => exact fun own direction input => world.run_mono own ih direction input

theorem call_mono {fuel more : Nat} (h : fuel ≤ more) (own : κ) (direction : Direction)
    (input : Value κ ν) :
    Below (world.call fuel own direction input) (world.call more own direction input) := by
  induction h with
  | refl => exact Below.refl _
  | step _ ih => exact fun output ho => world.call_succ _ own direction input output (ih output ho)

theorem Returns.unique {world : World κ ν} {own : κ} {direction : Direction}
    {input output other : Value κ ν} (h : world.Returns own direction input output)
    (ho : world.Returns own direction input other) : output = other := by
  obtain ⟨fuel, h⟩ := h
  obtain ⟨more, ho⟩ := ho
  have hm := world.call_mono (Nat.le_max_left fuel more) own direction input output h
  have hn := world.call_mono (Nat.le_max_right fuel more) own direction input other ho
  rw [hm] at hn
  cases hn
  rfl

end World

end Runtime

def Binding.suffix (depth : Nat) : List Char := if depth = 0 then [] else Nat.toDigits 10 depth

theorem Binding.ofDigitChars_suffix (depth : Nat) :
    Nat.ofDigitChars 10 (suffix depth) 0 = depth := by
  unfold suffix
  split
  next h => rw [h]; rfl
  next => exact Nat.ofDigitChars_ten_toDigits

theorem Binding.suffix_injective {left right : Nat} (h : suffix left = suffix right) :
    left = right := by
  rw [← ofDigitChars_suffix left, h, ofDigitChars_suffix]

theorem Binding.toList_text (role : Role) (depth : Nat) :
    (Binding.mk role depth).text.toList = role.name.toList ++ suffix depth := by
  have hd : (Binding.mk role depth).depth = (depth : Int) := rfl
  unfold text suffix
  rw [String.toList_append, hd]
  congr 1
  by_cases h : depth = 0
  · rw [if_pos h, if_pos (by omega)]
    rfl
  · rw [if_neg h, if_neg (by omega)]
    exact Nat.toList_repr

/-- No name of a role begins another one, up to digits. -/
theorem Role.eq_of_append {left right : Role} {ends others : List Char}
    (h : left.name.toList ++ ends = right.name.toList ++ others) :
    left = right ∧ ends = others := by
  cases left <;> cases right <;> simp_all [Role.name]

theorem Binding.text_ne {left right : Role} {depth other : Nat} (h : depth ≠ other) :
    (Binding.mk left depth).text ≠ (Binding.mk right other).text := by
  intro he
  have hl := congrArg String.toList he
  rw [toList_text, toList_text] at hl
  exact h (suffix_injective (Role.eq_of_append hl).2)

/-- The variables of an access belong to conversions around one of a given depth. -/
def Access.Below (depth : Nat) : Access → Prop
  | given _ => False
  | field _ => True
  | bound binding => ∃ own : Nat, binding.depth = own ∧ own < depth
  | tagged access _ => access.Below depth

theorem Access.below_bound (role : Role) (depth : Nat) :
    (Access.bound ⟨role, depth⟩).Below (depth + 1) := ⟨depth, rfl, by omega⟩

namespace Runtime

variable {κ ν : Type}

theorem input_ne (role : Role) (depth : Nat) : (Binding.mk role depth).text ≠ "input" := by
  intro he
  have hl := congrArg String.toList he
  rw [Binding.toList_text] at hl
  cases role <;> simp [Role.name] at hl

namespace World

variable (world : World κ ν) (own : κ)

theorem read_bound (scope : Scope κ ν) (binding : Binding) (value : Value κ ν) :
    world.read own (scope.bind binding value) (.bound binding) = .ok value := by
  unfold read Scope.bind Scope.valueOf
  exact if_pos rfl

theorem read_bind {access : Access} {depth : Nat} (h : access.Below depth) (role : Role)
    (scope : Scope κ ν) (value : Value κ ν) :
    world.read own (scope.bind ⟨role, depth⟩ value) access = world.read own scope access := by
  induction access with
  | given text => cases h
  | field name =>
    have hv : Scope.valueOf "input" (scope.bind ⟨role, depth⟩ value) = scope.valueOf "input" :=
      if_neg (input_ne role depth)
    unfold read
    rw [hv]
  | bound binding =>
    obtain ⟨inner, other⟩ := binding
    obtain ⟨index, rfl, hl⟩ := h
    exact if_neg (Binding.text_ne (by omega))
  | tagged access tag ih =>
    unfold read
    rw [ih h]

end World

end Runtime

end AvroBindings
