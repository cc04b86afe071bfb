import AvroBindings.Json.Basic

/-! Reading a JSON text. Beyond the standard, `NaN`, `Infinity` and `-Infinity` are numbers. A key
that comes twice keeps its first place and takes its last value. What cannot be read is
reported with the first position at which no reading can go on. -/

namespace AvroBindings.Json

inductive Problem where
  | byteOrderMark
  | expectingValue
  | extraData
  | expectingName
  | expectingColon
  | expectingComma
  | unterminatedString
  | controlCharacter
  | escape
  | unicodeEscape
  | tooManyDigits (count : Nat)
deriving DecidableEq, Repr

def digitLimit : Nat := 4300

def Problem.message : Problem → String
  | byteOrderMark => "Unexpected UTF-8 BOM (decode using utf-8-sig)"
  | expectingValue => "Expecting value"
  | extraData => "Extra data"
  | expectingName => "Expecting property name enclosed in double quotes"
  | expectingColon => "Expecting ':' delimiter"
  | expectingComma => "Expecting ',' delimiter"
  | unterminatedString => "Unterminated string starting at"
  | controlCharacter => "Invalid control character at"
  | escape => "Invalid \\escape"
  | unicodeEscape => "Invalid \\uXXXX escape"
  | tooManyDigits count =>
    "Exceeds the limit (" ++ toString digitLimit ++ " digits) for integer string conversion: " ++
      "value has " ++ toString count ++
      " digits; use sys.set_int_max_str_digits() to increase the limit"

/-- A problem and the input from its position on. -/
structure ReadError where
  problem : Problem
  rest : List Char
deriving Repr

def ReadError.message (error : ReadError) (input : List Char) : String :=
  let position := input.length - error.rest.length
  let before := input.take position
  let line := before.count '\n' + 1
  let column := (before.reverse.takeWhile (· != '\n')).length + 1
  error.problem.message ++ ": line " ++ toString line ++ " column " ++ toString column ++
    " (char " ++ toString position ++ ")"

def isBlank (c : Char) : Bool := c == ' ' || c == '\t' || c == '\n' || c == '\r'

def skipBlank (input : List Char) : List Char := input.dropWhile isBlank

def hexDigit? (c : Char) : Option Nat :=
  if '0' ≤ c ∧ c ≤ '9' then some (c.toNat - '0'.toNat)
  else if 'a' ≤ c ∧ c ≤ 'f' then some (c.toNat - 'a'.toNat + 10)
  else if 'A' ≤ c ∧ c ≤ 'F' then some (c.toNat - 'A'.toNat + 10)
  else none

def hexQuad? (a b c d : Char) : Option Nat := do
  return 4096 * (← hexDigit? a) + 256 * (← hexDigit? b) + 16 * (← hexDigit? c) + (← hexDigit? d)

def simpleEscape? : Char → Option Char
  | '"' => some '"'
  | '\\' => some '\\'
  | '/' => some '/'
  | 'b' => some '\x08'
  | 'f' => some '\x0c'
  | 'n' => some '\n'
  | 'r' => some '\r'
  | 't' => some '\t'
  | _ => none

def isHighSurrogate (unit : Nat) : Bool := 0xd800 ≤ unit && unit < 0xdc00
def isLowSurrogate (unit : Nat) : Bool := 0xdc00 ≤ unit && unit < 0xe000

/-- Half a surrogate pair is shown by the replacement character. -/
def unitChar (unit : Nat) : Char :=
  if isHighSurrogate unit || isLowSurrogate unit then '\ufffd' else Char.ofNat unit

def pairChar (high low : Nat) : Char :=
  Char.ofNat (0x10000 + (high - 0xd800) * 0x400 + (low - 0xdc00))

/-- The characters of code points and code units. A high surrogate takes a low one with it. -/
def joinSurrogates : List Nat → List Char
  | high :: low :: rest =>
    if isHighSurrogate high && isLowSurrogate low then pairChar high low :: joinSurrogates rest
    else unitChar high :: joinSurrogates (low :: rest)
  | [unit] => [unitChar unit]
  | [] => []

/-- A string after its opening quote, which stands at the head of `opening`. The digits of a code
unit need a character after them. -/
def readString (opening : List Char) :
    List Nat → List Char → Except ReadError (String × List Char)
  | read, '"' :: rest => .ok (String.ofList (joinSurrogates read.reverse), rest)
  | read, '\\' :: 'u' :: a :: b :: c :: d :: e :: rest =>
    match hexQuad? a b c d with
    | some unit => readString opening (unit :: read) (e :: rest)
    | none => .error ⟨.unicodeEscape, 'u' :: a :: b :: c :: d :: e :: rest⟩
  | _, '\\' :: 'u' :: digits => .error ⟨.unicodeEscape, 'u' :: digits⟩
  | read, '\\' :: c :: rest =>
    match simpleEscape? c with
    | some escaped => readString opening (escaped.toNat :: read) rest
    | none => .error ⟨.escape, '\\' :: c :: rest⟩
  | _, [] | _, ['\\'] => .error ⟨.unterminatedString, opening⟩
  | read, c :: rest =>
    if c.toNat ≤ 0x1f then .error ⟨.controlCharacter, c :: rest⟩
    else readString opening (c.toNat :: read) rest

def digitsValue (digits : List Char) : Nat :=
  digits.foldl (fun value digit => 10 * value + (digit.toNat - '0'.toNat)) 0

def readWhole? : List Char → Option (List Char × List Char)
  | '0' :: rest => some (['0'], rest)
  | c :: rest => if c.isDigit then some ((c :: rest).span Char.isDigit) else none
  | [] => none

def readFraction : List Char → List Char × List Char
  | '.' :: rest =>
    match rest.span Char.isDigit with
    | ([], _) => ([], '.' :: rest)
    | read => read
  | input => ([], input)

def readPower? : List Char → Option (Int × List Char)
  | c :: rest =>
    if c = 'e' ∨ c = 'E' then
      let (negative, digits) := match rest with
        | '-' :: rest => (true, rest)
        | '+' :: rest => (false, rest)
        | rest => (false, rest)
      match digits.span Char.isDigit with
      | ([], _) => none
      | (digits, rest) =>
        let power : Int := digitsValue digits
        some (if negative then -power else power, rest)
    else none
  | [] => none

/-- A number is an integer if it has neither a fraction nor a power of ten. -/
def readNumber (input : List Char) : Except ReadError (Json × List Char) := do
  let (negative, unsigned) := match input with
    | '-' :: rest => (true, rest)
    | rest => (false, rest)
  let some (whole, rest) := readWhole? unsigned | throw ⟨.expectingValue, input⟩
  let (fraction, rest) := readFraction rest
  let value (digits : List Char) (power : Int) : Json :=
    float (Binary64.ofDecimal negative (digitsValue digits) (power - fraction.length))
  match fraction, readPower? rest with
  | [], none =>
    if digitLimit < whole.length then throw ⟨.tooManyDigits whole.length, input⟩
    let value : Int := digitsValue whole
    return (int (if negative then -value else value), rest)
  | _, none => return (value (whole ++ fraction) 0, rest)
  | _, some (power, rest) => return (value (whole ++ fraction) power, rest)

mutual
/-- A value at the start of the input. Each level of fuel stands for a character or a level of
nesting, so that twice the length of the input is enough. -/
def readValue : Nat → List Char → Except ReadError (Json × List Char)
  | 0, input => .error ⟨.expectingValue, input⟩
  | fuel + 1, input =>
    match input with
    | '"' :: rest => do
      let (value, rest) ← readString input [] rest
      return (str value, rest)
    | '\x7b' :: rest =>
      match skipBlank rest with
      | '\x7d' :: rest => .ok (obj [], rest)
      | rest => readEntries fuel [] rest
    | '[' :: rest =>
      match skipBlank rest with
      | ']' :: rest => .ok (arr [], rest)
      | rest => readElements fuel [] rest
    | 'n' :: 'u' :: 'l' :: 'l' :: rest => .ok (null, rest)
    | 't' :: 'r' :: 'u' :: 'e' :: rest => .ok (bool true, rest)
    | 'f' :: 'a' :: 'l' :: 's' :: 'e' :: rest => .ok (bool false, rest)
    | 'N' :: 'a' :: 'N' :: rest => .ok (float .nan, rest)
    | 'I' :: 'n' :: 'f' :: 'i' :: 'n' :: 'i' :: 't' :: 'y' :: rest =>
      .ok (float (.infinite false), rest)
    | '-' :: 'I' :: 'n' :: 'f' :: 'i' :: 'n' :: 'i' :: 't' :: 'y' :: rest =>
      .ok (float (.infinite true), rest)
    | input => readNumber input

def readEntries : Nat → Attributes → List Char → Except ReadError (Json × List Char)
  | 0, _, input => .error ⟨.expectingName, input⟩
  | fuel + 1, read, input =>
    match input with
    | '"' :: rest => do
      let (key, rest) ← readString input [] rest
      match skipBlank rest with
      | ':' :: rest =>
        let (value, rest) ← readValue fuel (skipBlank rest)
        let read := read.set key value
        match skipBlank rest with
        | '\x7d' :: rest => .ok (obj read, rest)
        | ',' :: rest => readEntries fuel read (skipBlank rest)
        | rest => .error ⟨.expectingComma, rest⟩
      | rest => .error ⟨.expectingColon, rest⟩
    | input => .error ⟨.expectingName, input⟩

def readElements : Nat → List Json → List Char → Except ReadError (Json × List Char)
  | 0, _, input => .error ⟨.expectingValue, input⟩
  | fuel + 1, read, input => do
    let (value, rest) ← readValue fuel input
    match skipBlank rest with
    | ']' :: rest => .ok (arr (value :: read).reverse, rest)
    | ',' :: rest => readElements fuel (value :: read) (skipBlank rest)
    | rest => .error ⟨.expectingComma, rest⟩
end

def readText (input : List Char) : Except ReadError Json :=
  match input with
  | '\ufeff' :: _ => .error ⟨.byteOrderMark, input⟩
  | _ => do
    let (value, rest) ← readValue (2 * input.length + 2) (skipBlank input)
    match skipBlank rest with
    | [] => return value
    | rest => .error ⟨.extraData, rest⟩

def parse (text : String) : Except String Json :=
  (readText text.toList).mapError fun error => error.message text.toList

end AvroBindings.Json
