import AvroBindings.Number
import AvroBindings.Text.Encoding

/-! JSON values with the order of object entries, and with integers apart from other numbers.
Booleans count as the numbers zero and one, numbers compare by value whatever their form,
not-a-number is equal to itself, and objects are equal whatever the order of their entries. Values
of different kinds are unequal, and no order exists between them. -/

namespace AvroBindings

/-- An object is a list of entries. Those that a reader makes have no key twice. -/
inductive Json where
  | null
  | bool (value : Bool)
  | int (value : Int)
  | float (value : Binary64)
  | str (value : String)
  | arr (elements : List Json)
  | obj (entries : List (String × Json))
deriving Repr

abbrev Attributes := List (String × Json)

namespace Attributes

def get? (key : String) : Attributes → Option Json
  | [] => none
  | entry :: rest => if entry.1 = key then some entry.2 else get? key rest

/-- Replaces the value of a key where the key stands, or appends a new entry. -/
def set (key : String) (value : Json) : Attributes → Attributes
  | [] => [(key, value)]
  | entry :: rest => if entry.1 = key then (key, value) :: rest else entry :: set key value rest

@[simp] theorem get?_set_self (key : String) (value : Json) (attributes : Attributes) :
    (attributes.set key value).get? key = some value := by
  induction attributes with
  | nil => simp [set, get?]
  | cons entry rest ih => by_cases h : entry.1 = key <;> simp [set, get?, h, ih]

theorem get?_set_of_ne {key other : String} (h : key ≠ other) (value : Json)
    (attributes : Attributes) : (attributes.set key value).get? other = attributes.get? other := by
  induction attributes with
  | nil => simp [set, get?, h]
  | cons entry rest ih =>
    by_cases hk : entry.1 = key
    · simp [set, get?, hk, h]
    · simp [set, get?, hk, ih]

end Attributes

namespace Json

/-- The falsy values are null, false, zero, and the empty text, array and object. -/
def isTruthy : Json → Bool
  | null => false
  | bool value => value
  | int value => value != 0
  | float value => !value.isZero
  | str value => !value.isEmpty
  | arr elements => !elements.isEmpty
  | obj entries => !entries.isEmpty

def orNull (value : Json) : Json := if value.isTruthy then value else null

def isKey : Json → Bool
  | arr _ | obj _ => false
  | _ => true

def boolInt (value : Bool) : Int := if value then 1 else 0

/-- The order of two values that count as numbers. Beside not-a-number nothing comes first. -/
def compareNumbers? : Json → Json → Option Ordering
  | float left, float right => some ((left.compare? right).getD .eq)
  | float left, right => (integer? right).map fun i =>
      ((Binary64.compareInt? i left).map Ordering.swap).getD .eq
  | left, float right => (integer? left).map fun i => ((Binary64.compareInt? i right)).getD .eq
  | left, right => do return compare (← integer? left) (← integer? right)
where
  integer? : Json → Option Int
    | bool value => some (boolInt value)
    | int value => some value
    | _ => none

def isNan : Json → Bool
  | float .nan => true
  | _ => false

mutual
def same : Json → Json → Bool
  | null, null => true
  | str left, str right => left == right
  | arr left, arr right => sameAll left right
  | obj left, obj right => left.length == right.length && sameEntries left right
  | float .nan, float .nan => true
  | left, right => !isNan left && !isNan right && compareNumbers? left right == some .eq

def sameAll : List Json → List Json → Bool
  | [], [] => true
  | left :: lefts, right :: rights => same left right && sameAll lefts rights
  | _, _ => false

def sameEntries : List (String × Json) → Attributes → Bool
  | [], _ => true
  | (key, value) :: rest, right =>
    (match right.get? key with
      | some other => same value other
      | none => false) && sameEntries rest right
end

mutual
/-- The order of two values, absent if there is none. Arrays compare by their first elements
that differ, and by length if one begins the other. -/
def compare? : Json → Json → Option Ordering
  | str left, str right => some (compare left right)
  | arr left, arr right => compareAll? left right
  | left, right => compareNumbers? left right

def compareAll? : List Json → List Json → Option Ordering
  | [], [] => some .eq
  | [], _ :: _ => some .lt
  | _ :: _, [] => some .gt
  | left :: lefts, right :: rights =>
    if same left right then compareAll? lefts rights else compare? left right
end

mutual
/-- The parts that keep two values without an order apart: those at which two arrays first differ,
or the values themselves. -/
def clash : Json → Json → Json × Json
  | arr left, arr right => (clashAll? left right).getD (arr left, arr right)
  | left, right => (left, right)

def clashAll? : List Json → List Json → Option (Json × Json)
  | left :: lefts, right :: rights =>
    if same left right then clashAll? lefts rights else some (clash left right)
  | _, _ => none
end

@[simp] theorem compare?_str (left right : String) :
    compare? (str left) (str right) = some (compare left right) := by
  simp [compare?]

mutual
/-- The value as shown in a message. -/
def display : Json → String
  | null => "None"
  | bool true => "True"
  | bool false => "False"
  | int value => toString value
  | float value => value.text
  | str value => Quoted.quote value
  | arr elements => "[" ++ ", ".intercalate (displayAll elements) ++ "]"
  | obj entries => "\x7b" ++ ", ".intercalate (displayEntries entries) ++ "\x7d"

def displayAll : List Json → List String
  | [] => []
  | value :: rest => display value :: displayAll rest

def displayEntries : List (String × Json) → List String
  | [] => []
  | (key, value) :: rest => (Quoted.quote key ++ ": " ++ display value) :: displayEntries rest
end

/-- The value as pasted into other text. -/
def text : Json → String
  | str value => value
  | value => display value

def kind : Json → String
  | null => "NoneType"
  | bool _ => "bool"
  | int _ => "int"
  | float _ => "float"
  | str _ => "str"
  | arr _ => "list"
  | obj _ => "dict"

@[simp] theorem text_str (value : String) : (str value).text = value := rfl

end Json

end AvroBindings
