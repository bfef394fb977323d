import BrokerConfig.Json.Binary64

namespace BrokerConfig.Json

inductive Literal
  | whole (negative : Bool) (digits : Nat)
  | scaled (negative : Bool) (digits : Nat) (exponent : Int)
  deriving DecidableEq

namespace Literal

def natOfDigits (digits : List Char) : Nat :=
  digits.foldl (fun n c => 10 * n + (c.toNat - '0'.toNat)) 0

def exponent? : List Char → Option Int
  | '+' :: digits => magnitude? digits
  | '-' :: digits => (magnitude? digits).map (-·)
  | digits => magnitude? digits
where
  magnitude? (digits : List Char) : Option Int :=
    if digits ≠ [] ∧ digits.all Char.isDigit then some (natOfDigits digits) else none

def exponentPart? : List Char → Option Int
  | [] => some 0
  | c :: rest => if c = 'e' ∨ c = 'E' then exponent? rest else none

def unsigned? (negative : Bool) (chars : List Char) : Option Literal :=
  let digits := chars.takeWhile Char.isDigit
  if digits = [] ∨ (digits.head? = some '0' ∧ digits.length ≠ 1) then none
  else match chars.dropWhile Char.isDigit with
    | [] => some (.whole negative (natOfDigits digits))
    | '.' :: rest =>
      let fraction := rest.takeWhile Char.isDigit
      if fraction = [] then none
      else (exponentPart? (rest.dropWhile Char.isDigit)).map fun e =>
        .scaled negative (natOfDigits (digits ++ fraction)) (e - fraction.length)
    | rest => (exponentPart? rest).map (.scaled negative (natOfDigits digits))

def ofChars? : List Char → Option Literal
  | '-' :: rest => unsigned? true rest
  | chars => unsigned? false chars

end Literal

inductive Number
  | integer (n : Int)
  | binary64 (x : Binary64)
  deriving DecidableEq

namespace Number

def InRange (n : Int) : Prop := -0x8000000000000000 ≤ n ∧ n < 0x10000000000000000

instance (n : Int) : Decidable (InRange n) := inferInstanceAs (Decidable (_ ∧ _))

/-- A number too large for binary64 has no value. Minus zero is a binary64. -/
def ofLiteral? : Literal → Option Number
  | .whole negative digits =>
    let n : Int := if negative then -digits else digits
    if InRange n ∧ ¬(negative ∧ digits = 0) then some (.integer n)
    else (Binary64.ofDecimal? negative digits 0).map .binary64
  | .scaled negative digits exponent =>
    (Binary64.ofDecimal? negative digits exponent).map .binary64

def same : Number → Number → Bool
  | .integer m, .integer n => m = n
  | .binary64 x, .binary64 y => x.same y
  | _, _ => false

def chars : Number → List Char
  | .integer n =>
    let digits := Nat.toDigits 10 n.natAbs
    if n < 0 then '-' :: digits else digits
  | .binary64 x => x.chars

end Number

end BrokerConfig.Json
