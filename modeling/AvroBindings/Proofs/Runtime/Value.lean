import AvroBindings.Code.Declaration
import Mathlib.Data.List.Forall2

/-! Values that generated methods work on. Objects are finite maps of own properties with the class
they are instances of, if any, and numbers are any set. -/

namespace AvroBindings.Runtime

/-- Values over a set of classes and a set of numbers. -/
inductive Value (κ ν : Type) where
  | undefined
  | null
  | boolean (value : Bool)
  | number (value : ν)
  | string (value : String)
  | buffer (bytes : List UInt8)
  | array (items : List (Value κ ν))
  /-- An instance of a class, or a plain object. -/
  | object (instanceOf : Option κ) (properties : List (String × Value κ ν))

/-- An exception that code throws, or code that is given no meaning here. -/
inductive Failure where
  | thrown (message : String)
  | undetermined

variable {κ ν α : Type}

instance : Inhabited (Value κ ν) := ⟨.undefined⟩

abbrev Properties (κ ν : Type) := List (String × Value κ ν)

namespace Properties

def get (name : String) : Properties κ ν → Value κ ν
  | [] => .undefined
  | property :: rest => if property.1 = name then property.2 else get name rest

def set (name : String) (value : Value κ ν) : Properties κ ν → Properties κ ν
  | [] => [(name, value)]
  | property :: rest =>
    if property.1 = name then (name, value) :: rest else property :: set name value rest

theorem set_of_not_mem {name : String} {properties : Properties κ ν}
    (h : name ∉ properties.map Prod.fst) (value : Value κ ν) :
    set name value properties = properties ++ [(name, value)] := by
  induction properties with
  | nil => rfl
  | cons property rest ih =>
    have hn : property.1 ≠ name := fun he => h (by simp [he])
    have hr : name ∉ rest.map Prod.fst := fun hm => h (List.mem_cons_of_mem _ hm)
    rw [set, if_neg hn, ih hr]
    rfl

theorem get_of_mem {properties : Properties κ ν} (h : (properties.map Prod.fst).Nodup)
    {name : String} {value : Value κ ν} (hm : (name, value) ∈ properties) :
    get name properties = value := by
  induction properties with
  | nil => cases hm
  | cons property rest ih =>
    rw [List.map_cons, List.nodup_cons] at h
    rw [get]
    obtain rfl | hm := List.mem_cons.1 hm
    · exact if_pos rfl
    · have hn : property.1 ≠ name := fun he => h.1 (he ▸ List.mem_map_of_mem hm)
      rw [if_neg hn]
      exact ih h.2 hm

/-- Properties set one after the other. A value may depend on those that are set already. -/
def collect (name : α → String) (value : Properties κ ν → α → Except Failure (Value κ ν))
    (items : List α) : Except Failure (Properties κ ν) :=
  items.foldlM (fun properties item => return set (name item) (← value properties item) properties)
    []

theorem collect_eq {name : α → String}
    {value : Properties κ ν → α → Except Failure (Value κ ν)} {items : List α}
    {made : Properties κ ν} (hn : (made.map Prod.fst).Nodup)
    (hv : List.Forall₂ (fun item property => name item = property.1 ∧
      ∀ seen, value seen item = .ok property.2) items made) :
    collect name value items = .ok made := by
  -- On top of what is set already, as long as none of the names is.
  have hg : ∀ seen : Properties κ ν, (seen ++ made).map Prod.fst |>.Nodup →
      items.foldlM (fun properties item => do
        return set (name item) (← value properties item) properties) seen =
        .ok (seen ++ made) := by
    clear hn
    induction hv with
    | nil =>
      intro seen _
      rw [List.append_nil]
      rfl
    | @cons item property items made hi _ ih =>
      intro seen hs
      obtain ⟨hn, hv⟩ := hi
      have hm : property.1 ∉ seen.map Prod.fst := by
        rw [List.map_append, List.map_cons] at hs
        exact fun h => (List.nodup_append.1 hs).2.2 _ h _ List.mem_cons_self rfl
      have hr := ih (seen ++ [property]) (by rwa [List.append_assoc])
      rw [List.foldlM_cons, hv seen, hn]
      change List.foldlM _ (set property.1 property.2 seen) items = _
      rw [set_of_not_mem hm, hr, List.append_assoc]
      rfl
  exact hg [] hn

end Properties

namespace Value

/-- The property of a value under a name. Null and undefined have none, and those of other values
than objects are left open. -/
def property (name : String) : Value κ ν → Except Failure (Value κ ν)
  | object _ properties => .ok (Properties.get name properties)
  | undefined | null => .error (.thrown "TypeError")
  | _ => .error .undetermined

def isNull : Value κ ν → Bool
  | null => true
  | _ => false

def isUndefined : Value κ ν → Bool
  | undefined => true
  | _ => false

def typeName : Value κ ν → String
  | undefined => "undefined"
  | null | buffer _ | array _ | object .. => "object"
  | boolean _ => "boolean"
  | number _ => "number"
  | string _ => "string"

/-- Whether the prototype of a value is the one of plain objects. -/
def isPlain : Value κ ν → Bool
  | object none _ => true
  | _ => false

def keys : Value κ ν → Except Failure (List String)
  | object _ properties => .ok (properties.map Prod.fst)
  | undefined | null => .error (.thrown "TypeError")
  | _ => .error .undetermined

def elements : Value κ ν → Except Failure (List (Value κ ν))
  | array items => .ok items
  | undefined | null => .error (.thrown "TypeError")
  | _ => .error .undetermined

end Value

end AvroBindings.Runtime
