/-!
Numbers of the binary64 format, kept as their 64-bit words. A word is read off a decimal by
rounding the exact quotient to the nearest number, a tie to the even significand; it is written
with the fewest digits that round back to it. Everything is arithmetic on naturals.
-/

namespace BrokerConfig.Json

structure Binary64 where
  word : UInt64
  deriving DecidableEq

namespace Binary64

def leadingBit : Nat := 0x10000000000000

def signBit : Nat := 0x8000000000000000

def infinity : Nat := 2047 * leadingBit

def isNegative (x : Binary64) : Bool := x.word.toNat ≥ signBit

def magnitude (x : Binary64) : Nat := x.word.toNat % signBit

def ofMagnitude (negative : Bool) (magnitude : Nat) : Binary64 :=
  ⟨UInt64.ofNat (if negative then signBit + magnitude else magnitude)⟩

def same (x y : Binary64) : Bool := x = y || (x.magnitude = 0 && y.magnitude = 0)

def pow2Above (q : Int) : Nat := Nat.pow 2 q.toNat

def pow10Above (e : Int) : Nat := Nat.pow 10 e.toNat

def roundQuotient (num den : Nat) : Nat :=
  let low := num / den
  let twice := 2 * (num % den)
  if twice < den then low
  else if den < twice then low + 1
  else if low % 2 = 0 then low else low + 1

/-- The magnitude nearest to `num / den` with both positive; `none` at and beyond the infinity.
The significand gets 53 bits unless the exponent is at its lower end, and a significand that
rounds up to 54 bits carries into the exponent field by itself. -/
def nearestQuotient? (num den : Nat) : Option Nat :=
  let estimate : Int := max ((num.log2 : Int) - den.log2 - 53) (-1074)
  let scaledNum (q : Int) : Nat := num * pow2Above (-q)
  let scaledDen (q : Int) : Nat := den * pow2Above q
  let whole : Nat := scaledNum estimate / scaledDen estimate
  let q := if whole < 2 * leadingBit then estimate else estimate + 1
  let significand := roundQuotient (scaledNum q) (scaledDen q)
  let magnitude := (q + 1074).toNat * leadingBit + significand
  if magnitude < infinity then some magnitude else none

def ofDecimal? (negative : Bool) (digits : Nat) (exponent : Int) : Option Binary64 :=
  if digits = 0 then some (ofMagnitude negative 0)
  else if exponent > 400 then none
  else if exponent + (digits.log2 + 1 : Nat) < -400 then some (ofMagnitude negative 0)
  else (nearestQuotient? (digits * pow10Above exponent) (pow10Above (-exponent))).map
    (ofMagnitude negative)

def parts (magnitude : Nat) : Nat × Int :=
  let fraction : Nat := magnitude % leadingBit
  let field : Nat := magnitude / leadingBit
  if field = 0 then (fraction, -1074) else (leadingBit + fraction, (field : Int) - 1075)

/-- The reals that round to a number, in quarters of its last place: the ends lie halfway to the
two neighbours, and the lower one is nearer at the start of a binade. -/
structure Interval where
  low : Nat
  value : Nat
  high : Nat
  closed : Bool
  quarter : Int

def interval (magnitude : Nat) : Interval :=
  let (m, q) := parts magnitude
  { low := if m = leadingBit ∧ q > -1074 then 4 * m - 1 else 4 * m - 2
    value := 4 * m
    high := 4 * m + 2
    closed := m % 2 = 0
    quarter := q - 2 }

def decimalExponent (num den : Nat) : Int :=
  if den ≤ num then ((Nat.toDigits 10 (num / den)).length : Int) - 1
  else -((Nat.toDigits 10 (den / num)).length : Int)

def onGrid? (i : Interval) (e : Int) : Option Nat :=
  -- both sides of a comparison in units of `2 ^ quarter / 10 ^ -e`
  let unit := pow2Above i.quarter * pow10Above (-e)
  let step := pow10Above e * pow2Above (-i.quarter)
  let value := i.value * unit
  let inside (c : Nat) : Bool :=
    let point := c * step
    if i.closed then i.low * unit ≤ point && point ≤ i.high * unit
    else i.low * unit < point && point < i.high * unit
  let below := value / step
  match inside below, inside (below + 1) with
  | true, true => some (roundQuotient value step)
  | true, false => some below
  | false, true => some (below + 1)
  | false, false => none

def dropZeros (digits : Nat) (exponent : Int) : Nat → Nat × Int
  | 0 => (digits, exponent)
  | fuel + 1 =>
    if digits ≠ 0 ∧ digits % 10 = 0 then dropZeros (digits / 10) (exponent + 1) fuel
    else (digits, exponent)

/-- The shortest decimal that rounds to a positive magnitude, as digits and exponent. Seventeen
digits always suffice. -/
def shortest (magnitude : Nat) : Nat × Int :=
  let i := interval magnitude
  let e := decimalExponent (i.value * pow2Above i.quarter) (pow2Above (-i.quarter))
  let found := (List.range 17).findSome? fun (n : Nat) =>
    (onGrid? i (e - n)).map fun c => (c, e - (n : Int))
  match found with
  | some (digits, exponent) => dropZeros digits exponent 20
  | none => (0, 0)

def positionalFrom : Int := -5

def positionalBelow : Int := 16

def decimalText (digits : List Char) (first : Int) : List Char :=
  if positionalFrom ≤ first ∧ first < positionalBelow then
    if first < 0 then '0' :: '.' :: (List.replicate (-first - 1).toNat '0' ++ digits)
    else
      let whole := first.toNat + 1
      let padded := digits ++ List.replicate (whole - digits.length) '0'
      let fraction := padded.drop whole
      padded.take whole ++ '.' :: (if fraction = [] then ['0'] else fraction)
  else
    let mantissa := match digits with
      | d :: e :: rest => d :: '.' :: e :: rest
      | short => short
    let sign := if first < 0 then '-' else '+'
    mantissa ++ 'e' :: sign :: Nat.toDigits 10 first.natAbs

def chars (x : Binary64) : List Char :=
  let sign := if x.isNegative then ['-'] else []
  if x.magnitude = 0 then sign ++ ['0', '.', '0']
  else
    let (digits, exponent) := shortest x.magnitude
    let written := Nat.toDigits 10 digits
    sign ++ decimalText written (exponent + written.length - 1)

end Binary64

end BrokerConfig.Json
