import BrokerConfig.Json.Number
import BrokerConfig.Text

/-!
The tokens of JSON text. A string token holds the code points it was written with: an escape may
name half of a surrogate pair, and the halves are only joined when the string is used.
-/

namespace BrokerConfig.Json

inductive Scalar
  | null
  | bool (b : Bool)
  | number (literal : Literal)
  | text (points : List Nat)
  deriving DecidableEq

inductive Token
  | openArray
  | closeArray
  | openObject
  | closeObject
  | comma
  | colon
  | scalar (s : Scalar)
  deriving DecidableEq

def isHighSurrogate (n : Nat) : Bool := 0xD800 ≤ n && n < 0xDC00

def isLowSurrogate (n : Nat) : Bool := 0xDC00 ≤ n && n < 0xE000

/-- The characters that code points stand for; a surrogate half must be one of a pair. -/
def charsOfPoints? : List Nat → Option (List Char)
  | [] => some []
  | high :: low :: rest =>
    if isHighSurrogate high && isLowSurrogate low then
      (charsOfPoints? rest).map
        (Char.ofNat (0x10000 + (high - 0xD800) * 0x400 + (low - 0xDC00)) :: ·)
    else single? high (charsOfPoints? (low :: rest))
  | [point] => single? point (some [])
where
  single? (point : Nat) (rest : Option (List Char)) : Option (List Char) :=
    if isHighSurrogate point || isLowSurrogate point then none
    else rest.map (Char.ofNat point :: ·)

def textOfPoints? (points : List Nat) : Option String :=
  (charsOfPoints? points).map String.ofList

namespace Token

def ofRun? : List Char → Option Token
  | ['n', 'u', 'l', 'l'] => some (.scalar .null)
  | ['t', 'r', 'u', 'e'] => some (.scalar (.bool true))
  | ['f', 'a', 'l', 's', 'e'] => some (.scalar (.bool false))
  | chars => (Literal.ofChars? chars).map fun literal => .scalar (.number literal)

def punctuation? (c : Char) : Option Token :=
  if c = '[' then some .openArray
  else if c = ']' then some .closeArray
  else if c = '{' then some .openObject
  else if c = '}' then some .closeObject
  else if c = ',' then some .comma
  else if c = ':' then some .colon
  else none

def isGap (c : Char) : Bool := c = ' ' || c = '\t' || c = '\n' || c = '\r'

def escapedPoint? (c : Char) : Option Nat :=
  if c = '"' ∨ c = '\\' ∨ c = '/' then some c.toNat
  else if c = 'b' then some 0x08
  else if c = 'f' then some 0x0C
  else if c = 'n' then some 0x0A
  else if c = 'r' then some 0x0D
  else if c = 't' then some 0x09
  else none

inductive Position
  | between
  | run (chars : List Char)
  | string (points : List Nat)
  | backslash (points : List Nat)
  | hex (points : List Nat) (count value : Nat)

structure Scan where
  found : List Token
  position : Position

namespace Scan

def start : Scan := ⟨[], .between⟩

def enter (found : List Token) (c : Char) : Scan :=
  if isGap c then ⟨found, .between⟩
  else if c = '"' then ⟨found, .string []⟩
  else match punctuation? c with
    | some token => ⟨token :: found, .between⟩
    | none => ⟨found, .run [c]⟩

def endsRun (c : Char) : Bool := isGap c || c = '"' || (punctuation? c).isSome

def step (scan : Scan) (c : Char) : Option Scan :=
  match scan.position with
  | .between => some (enter scan.found c)
  | .run chars =>
    if endsRun c then (ofRun? chars.reverse).map fun token => enter (token :: scan.found) c
    else some { scan with position := .run (c :: chars) }
  | .string points =>
    if c = '"' then some ⟨.scalar (.text points.reverse) :: scan.found, .between⟩
    else if c = '\\' then some { scan with position := .backslash points }
    else if c.toNat < 0x20 then none
    else some { scan with position := .string (c.toNat :: points) }
  | .backslash points =>
    if c = 'u' then some { scan with position := .hex points 4 0 }
    else (escapedPoint? c).map fun point => { scan with position := .string (point :: points) }
  | .hex points count value =>
    (Text.Hex.value? c).map fun digit =>
      let value := 16 * value + digit
      if count ≤ 1 then { scan with position := .string (value :: points) }
      else { scan with position := .hex points (count - 1) value }

def finish? (scan : Scan) : Option (List Token) :=
  match scan.position with
  | .between => some scan.found.reverse
  | .run chars => (ofRun? chars.reverse).map fun token => (token :: scan.found).reverse
  | _ => none

end Scan

def scan? (chars : List Char) : Option (List Token) :=
  (chars.foldlM Scan.step Scan.start).bind Scan.finish?

end Token

end BrokerConfig.Json
