/-! Binary floating-point numbers of 64 bits, as a sign, a significand and a power of two, and their
decimal texts. A decimal is read by rounding its exact value to the nearest number, a tie going to
the even significand. A number is written as the nearest of the shortest decimals that round to it,
positionally for exponents from -4 to 15. All of it is exact arithmetic on natural numbers. -/

namespace AvroBindings

/-- A finite number is `significand · 2 ^ exponent`. Its significand has at most 53 bits, and
exactly 53 unless the exponent is the least one. -/
inductive Binary64 where
  | nan
  | infinite (negative : Bool)
  | finite (negative : Bool) (significand : Nat) (exponent : Int)
deriving DecidableEq, Repr

namespace Binary64

def leastExponent : Int := -1074
def greatestExponent : Int := 971

/-- The nearest natural number to a quotient, a tie going to the even one. -/
def roundQuotient (numerator denominator : Nat) : Nat :=
  let quotient := numerator / denominator
  match compare (2 * (numerator % denominator)) denominator with
  | .lt => quotient
  | .gt => quotient + 1
  | .eq => quotient + quotient % 2

/-- Rounding may carry a significand to 54 bits, which is then a power of two. -/
def normalised (negative : Bool) (significand : Nat) (exponent : Int) : Binary64 :=
  let carried := significand = Nat.pow 2 53
  let exponent := if carried then exponent + 1 else exponent
  if greatestExponent < exponent then infinite negative
  else finite negative (if carried then Nat.pow 2 52 else significand) exponent

/-- The number nearest to a positive quotient. The exponent leaves 53 bits before the point,
fewer only where the least exponent forbids it. -/
def ofQuotient (negative : Bool) (numerator denominator : Nat) : Binary64 :=
  let scaled (exponent : Int) : Nat × Nat :=
    (numerator * Nat.pow 2 (-exponent).toNat, denominator * Nat.pow 2 exponent.toNat)
  let estimate : Int := (numerator.log2 : Int) - denominator.log2 - 53
  let (above, below) := scaled estimate
  let exponent :=
    max leastExponent (if above / below < Nat.pow 2 53 then estimate else estimate + 1)
  let (above, below) := scaled exponent
  normalised negative (roundQuotient above below) exponent

/-- The number nearest to `digits · 10 ^ exponent`. Decimals far outside the range are settled
by their exponent, so that no huge power is computed. -/
def ofDecimal (negative : Bool) (digits : Nat) (exponent : Int) : Binary64 :=
  if digits = 0 ∨ exponent + digits.log2 < -400 then finite negative 0 leastExponent
  else if 400 < exponent then infinite negative
  else ofQuotient negative (digits * Nat.pow 10 exponent.toNat) (Nat.pow 10 (-exponent).toNat)

def isZero : Binary64 → Bool
  | finite _ 0 _ => true
  | _ => false

def scaledInt? : Binary64 → Option (Int × Int)
  | finite negative significand exponent =>
    some (if negative then -(significand : Int) else significand, exponent)
  | _ => none

def compareScaled (left right : Int × Int) : Ordering :=
  let least := min left.2 right.2
  compare (left.1 * Nat.pow 2 (left.2 - least).toNat) (right.1 * Nat.pow 2 (right.2 - least).toNat)

def compare? : Binary64 → Binary64 → Option Ordering
  | nan, _ | _, nan => none
  | infinite left, infinite right => some (compare right left)
  | infinite negative, finite .. => some (if negative then .lt else .gt)
  | finite .., infinite negative => some (if negative then .gt else .lt)
  | finite ln ls le, finite rn rs re => do
    return compareScaled (← scaledInt? (finite ln ls le)) (← scaledInt? (finite rn rs re))

def compareInt? (left : Int) : Binary64 → Option Ordering
  | nan => none
  | infinite negative => some (if negative then .gt else .lt)
  | finite rn rs re => (scaledInt? (finite rn rs re)).map (compareScaled (left, 0))

structure Decimal where
  digits : Nat
  exponent : Int
deriving DecidableEq, Repr

def Decimal.compareBinary (decimal : Decimal) (significand : Nat) (exponent : Int) : Ordering :=
  compare (decimal.digits * Nat.pow 10 decimal.exponent.toNat * Nat.pow 2 (-exponent).toNat)
    (significand * Nat.pow 2 exponent.toNat * Nat.pow 10 (-decimal.exponent).toNat)

/-- The greatest multiple of `10 ^ e` that is not above `significand · 2 ^ q`. -/
def floorOnGrid (significand : Nat) (exponent grid : Int) : Decimal where
  digits := significand * Nat.pow 2 exponent.toNat * Nat.pow 10 (-grid).toNat /
    (Nat.pow 2 (-exponent).toNat * Nat.pow 10 grid.toNat)
  exponent := grid

/-- Whether a decimal rounds to the number: it lies between the midpoints to the neighbours,
which belong to the number exactly if its significand is even. The neighbour below a power of
two is only half as far away. -/
def roundsTo (decimal : Decimal) (significand : Nat) (exponent : Int) : Bool :=
  let below := if significand = Nat.pow 2 52 ∧ leastExponent < exponent then 1 else 2
  let lower := decimal.compareBinary (4 * significand - below) (exponent - 2)
  let upper := decimal.compareBinary (4 * significand + 2) (exponent - 2)
  if significand % 2 = 0 then lower.isGE && upper.isLE else lower.isGT && upper.isLT

def leadingExponent (significand : Nat) (exponent : Int) : Int :=
  let estimate := ((significand.log2 : Int) + exponent) * 30103 / 100000
  if (Decimal.mk 1 (estimate + 1)).compareBinary significand exponent |>.isLE then estimate + 1
  else estimate

/-- The nearer of the two neighbours on a decimal grid that round to the number. -/
def nearestOnGrid? (significand : Nat) (exponent grid : Int) : Option Decimal :=
  let low := floorOnGrid significand exponent grid
  let high := { low with digits := low.digits + 1 }
  match roundsTo low significand exponent, roundsTo high significand exponent with
  | false, false => none
  | true, false => some low
  | false, true => some high
  | true, true =>
    let middle : Decimal := { low with digits := 2 * low.digits + 1 }
    match middle.compareBinary (2 * significand) exponent with
    | .gt => some low
    | .lt => some high
    | .eq => some (if low.digits % 2 = 0 then low else high)

/-- Seventeen digits always suffice. -/
def shortest (significand : Nat) (exponent : Int) : Decimal :=
  let leading := leadingExponent significand exponent
  let found := (List.range 17).findSome? fun (extra : Nat) =>
    nearestOnGrid? significand exponent (leading - extra)
  found.getD (floorOnGrid significand exponent (leading - 16))

def zeros (count : Nat) : List Char := List.replicate count '0'

def Decimal.layout (decimal : Decimal) : List Char × Int :=
  let digits := (toString decimal.digits).toList
  ((digits.reverse.dropWhile (· == '0')).reverse, digits.length + decimal.exponent)

/-- The digits with a point after `point` places, or a single digit and a power of ten of at
least two digits. -/
def layoutText (digits : List Char) (point : Int) : List Char :=
  if -4 < point ∧ point ≤ 16 then
    let places := point.toNat
    let whole := digits.take places ++ zeros (places - digits.length)
    let part := zeros (-point).toNat ++ digits.drop places
    (if whole = [] then ['0'] else whole) ++ '.' :: (if part = [] then ['0'] else part)
  else
    let power := point - 1
    let powerDigits := (toString power.natAbs).toList
    let fraction := digits.drop 1
    digits.take 1 ++ (if fraction = [] then [] else '.' :: fraction) ++
      'e' :: (if power < 0 then '-' else '+') :: zeros (2 - powerDigits.length) ++ powerDigits

def signed (negative : Bool) (text : String) : String := if negative then "-" ++ text else text

def text : Binary64 → String
  | nan => "nan"
  | infinite negative => signed negative "inf"
  | finite negative significand exponent =>
    signed negative <|
      if significand = 0 then "0.0"
      else
        let (digits, point) := (shortest significand exponent).layout
        String.ofList (layoutText digits point)

end Binary64

end AvroBindings
