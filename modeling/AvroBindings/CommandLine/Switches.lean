import AvroBindings.Text.Split

/-! Command-line switches. A long switch may be cut short as long as one switch begins that way,
a value may follow a switch directly, and short switches without values may be joined. An
argument `--` ends the switches. -/

namespace AvroBindings

/-- The digits zero of all scripts. In each script the other digits follow the zero. -/
def zeroDigits : List Nat :=
  [0x30, 0x660, 0x6f0, 0x7c0, 0x966, 0x9e6, 0xa66, 0xae6, 0xb66, 0xbe6, 0xc66, 0xce6, 0xd66, 0xde6,
   0xe50, 0xed0, 0xf20, 0x1040, 0x1090, 0x17e0, 0x1810, 0x1946, 0x19d0, 0x1a80, 0x1a90, 0x1b50,
   0x1bb0, 0x1c40, 0x1c50, 0xa620, 0xa8d0, 0xa900, 0xa9d0, 0xa9f0, 0xaa50, 0xabf0, 0xff10, 0x104a0,
   0x10d30, 0x11066, 0x110f0, 0x11136, 0x111d0, 0x112f0, 0x11450, 0x114d0, 0x11650, 0x116c0,
   0x11730, 0x118e0, 0x11950, 0x11c50, 0x11d50, 0x11da0, 0x16a60, 0x16ac0, 0x16b50, 0x1d7ce,
   0x1d7d8, 0x1d7e2, 0x1d7ec, 0x1d7f6, 0x1e140, 0x1e2f0, 0x1e950, 0x1fbf0]

def isDecimalDigit (c : Char) : Bool :=
  zeroDigits.any fun first => first ≤ c.toNat && c.toNat < first + 10

namespace CommandLine

inductive Arity where
  | none
  | one
  | oneOrMore
deriving DecidableEq, Repr

structure Switch (α : Type) where
  meaning : α
  names : List String
  arity : Arity := .none
  choices : Option (List String) := none
deriving Repr

inductive Rejection where
  | rejected
deriving DecidableEq, Repr

inductive Token (α : Type) where
  /-- One of the switches, under one of its names, with what follows it in the same argument. -/
  | switch (switch : Switch α) (name : String) (attached : Option String)
  /-- What looks like a switch but is none. -/
  | unknownSwitch (argument : String)
  | value (argument : String)
  | separator
deriving Repr

variable {α : Type}

namespace Token

def value? : Token α → Option String
  | value argument => some argument
  | _ => none

end Token

def splitEquals (argument : String) : Option (String × String) :=
  match argument.toList.splitOn '=' with
  | name :: first :: rest =>
    some (String.ofList name, String.ofList (['='].intercalate (first :: rest)))
  | _ => none

def findSwitch? (switches : List (Switch α)) (name : String) : Option (Switch α) :=
  switches.find? (·.names.contains name)

/-- The switches that an argument may mean if it is not the name of one: those that a long one
begins, or the short one that a value is attached to. -/
def abbreviated (switches : List (Switch α)) (argument : String) : List (Token α) :=
  if argument.startsWith "--" then
    let (start, attached) := match splitEquals argument with
      | some (start, value) => (start, some value)
      | none => (argument, none)
    switches.flatMap fun switch =>
      (switch.names.filter (·.startsWith start)).map (.switch switch · attached)
  else
    let short := String.ofList (argument.toList.take 2)
    let rest := String.ofList (argument.toList.drop 2)
    switches.flatMap fun switch =>
      switch.names.filterMap fun name =>
        if name = short then some (.switch switch name (some rest))
        else if name.startsWith argument then some (.switch switch name none)
        else none

/-- A negative number in decimal digits of any script, with a fraction or not. A line feed may
end it. -/
def isNegativeNumber (argument : String) : Bool :=
  match argument.toList with
  | '-' :: number =>
    let digits := if number.getLast? == some '\n' then number.dropLast else number
    match digits.splitOn '.' with
    | [whole] => !whole.isEmpty && whole.all isDecimalDigit
    | [whole, fraction] =>
      whole.all isDecimalDigit && !fraction.isEmpty && fraction.all isDecimalDigit
    | _ => false
  | _ => false

def classify (switches : List (Switch α)) (argument : String) : Except Rejection (Token α) :=
  match argument.toList with
  | '-' :: _ :: _ =>
    match findSwitch? switches argument with
    | some switch => .ok (.switch switch argument none)
    | none =>
      let assigned := do
        let (name, value) ← splitEquals argument
        return Token.switch (← findSwitch? switches name) name (some value)
      match assigned with
      | some token => .ok token
      | none =>
        match abbreviated switches argument with
        | [token] => .ok token
        | _ :: _ :: _ => .error .rejected
        | [] =>
          if isNegativeNumber argument || argument.toList.contains ' ' then .ok (.value argument)
          else .ok (.unknownSwitch argument)
  | _ => .ok (.value argument)

/-- All arguments in order. After the end of the switches all are values. -/
def tokens (switches : List (Switch α)) : List String → Except Rejection (List (Token α))
  | [] => return []
  | "--" :: rest => return .separator :: rest.map .value
  | argument :: rest => return (← classify switches argument) :: (← tokens switches rest)

/-- What one argument names: switches without values, and the last switch with the value that is
attached to it. -/
structure Joined (α : Type) where
  flags : List (Switch α)
  last : Switch α
  value : Option String
deriving Repr

/-- A short switch with what follows it in its argument: its value if it takes one, and the
letters of other short switches if not. -/
def unjoin (switches : List (Switch α)) (switch : Switch α) :
    List Char → Except Rejection (Joined α)
  | [] => if switch.arity = .none then .error .rejected else .ok ⟨[], switch, some ""⟩
  | letter :: rest =>
    if switch.arity ≠ .none then .ok ⟨[], switch, some (String.ofList (letter :: rest))⟩
    else do
      let some next := findSwitch? switches (String.ofList ['-', letter]) | .error .rejected
      let joined ← if rest.isEmpty then .ok ⟨[], next, none⟩ else unjoin switches next rest
      return { joined with flags := switch :: joined.flags }

def join (switches : List (Switch α)) (switch : Switch α) (name : String) :
    Option String → Except Rejection (Joined α)
  | none => .ok ⟨[], switch, none⟩
  | some attached =>
    if name.startsWith "--" && switch.arity == .none then .error .rejected
    else unjoin switches switch attached.toList

/-- The values in an attached text. Two dashes stand for none. -/
def attachedValues (text : String) : List String := if text = "--" then [] else [text]

def followingValues (arity : Arity) (tokens : List (Token α)) : Except Rejection (List String) :=
  match arity, tokens.map Token.value? with
  | .none, _ => .ok []
  | .one, some value :: _ => .ok [value]
  | .oneOrMore, some value :: rest => .ok (value :: (rest.takeWhile Option.isSome).filterMap id)
  | _, _ => .error .rejected

structure Occurrence (α : Type) where
  switch : Switch α
  values : List String
deriving Repr

def Occurrence.isAllowed (occurrence : Occurrence α) : Bool :=
  match occurrence.switch.choices with
  | none => true
  | some choices => occurrence.values.all choices.contains

/-- What a list of tokens says up to the point where it makes no sense: the switches that occur,
and whether all of it made sense and nothing was left over. -/
structure Scan (α : Type) where
  occurrences : List (Occurrence α)
  complete : Bool
deriving Repr

def Scan.after (occurrences : List (Occurrence α)) (scan : Scan α) : Scan α :=
  ⟨occurrences ++ scan.occurrences, scan.complete⟩

def scan (switches : List (Switch α)) : Nat → List (Token α) → Scan α
  | _, [] => ⟨[], true⟩
  | skipped + 1, _ :: rest => scan switches skipped rest
  | 0, .switch switch name attached :: rest =>
    match join switches switch name attached with
    | .error _ => ⟨[], false⟩
    | .ok ⟨flags, last, some text⟩ =>
      (scan switches 0 rest).after (flags.map (⟨·, []⟩) ++ [⟨last, attachedValues text⟩])
    | .ok ⟨flags, last, none⟩ =>
      match followingValues last.arity rest with
      | .error _ => ⟨[], false⟩
      | .ok values =>
        (scan switches values.length rest).after (flags.map (⟨·, []⟩) ++ [⟨last, values⟩])
  | 0, _ :: rest => { scan switches 0 rest with complete := false }

end CommandLine

end AvroBindings
