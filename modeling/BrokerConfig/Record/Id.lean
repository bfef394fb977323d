import BrokerConfig.Digest.Md5
import BrokerConfig.Text

namespace BrokerConfig

structure RecordId where
  bits : BitVec 128
  deriving DecidableEq

namespace RecordId

def nibbles : (count n : Nat) → List Char
  | 0, _ => []
  | count + 1, n => nibbles count (n / 16) ++ [Text.Hex.digit (n % 16)]

def groups : List Nat := [8, 4, 4, 4, 12]

def hyphenate : List Nat → List Char → List Char
  | [], digits => digits
  | [_], digits => digits
  | size :: sizes, digits => digits.take size ++ '-' :: hyphenate sizes (digits.drop size)

def chars (id : RecordId) : List Char := hyphenate groups (nibbles 32 id.bits.toNat)

def print (id : RecordId) : String := String.ofList id.chars

instance : ToString RecordId := ⟨print⟩

def ofDigits? (digits : List Char) : Option RecordId :=
  if digits.length = 32 then
    (digits.mapM Text.Hex.value?).map fun values =>
      ⟨BitVec.ofNat 128 (values.foldl (fun n v => 16 * n + v) 0)⟩
  else none

def unhyphenate? : List Nat → List Char → Option (List Char)
  | [], chars => some chars
  | [_], chars => some chars
  | size :: sizes, chars =>
    match chars.drop size with
    | '-' :: rest => (unhyphenate? sizes rest).map (chars.take size ++ ·)
    | _ => none

def ofHyphenated? (chars : List Char) : Option RecordId :=
  (unhyphenate? groups chars).bind ofDigits?

def ofBraced? : List Char → Option RecordId
  | '{' :: rest => if rest.getLast? = some '}' then ofHyphenated? rest.dropLast else none
  | _ => none

def urnScheme : List Char := "urn:uuid:".toList

def ofUrn? (chars : List Char) : Option RecordId :=
  if (chars.take urnScheme.length).map Char.toLower = urnScheme then
    ofHyphenated? (chars.drop urnScheme.length)
  else none

def ofText? (s : String) : Option RecordId :=
  let chars := s.toList
  ofDigits? chars <|> ofHyphenated? chars <|> ofBraced? chars <|> ofUrn? chars

def octets : (count n : Nat) → List UInt8
  | 0, _ => []
  | count + 1, n => octets count (n / 256) ++ [UInt8.ofNat (n % 256)]

def bytes (id : RecordId) : List UInt8 := octets 16 id.bits.toNat

def ofBytes (bytes : List UInt8) : RecordId :=
  ⟨BitVec.ofNat 128 (bytes.foldl (fun n b => 256 * n + b.toNat) 0)⟩

/-- Marks an id as derived from a name: version 3, variant 1. -/
def stampNamed (id : RecordId) : RecordId :=
  ⟨(id.bits &&& ~~~(0xF000#128 <<< 64) &&& ~~~(0xC000#128 <<< 48)) |||
    (0x3000#128 <<< 64) ||| (0x8000#128 <<< 48)⟩

def utf8 (s : String) : List UInt8 := s.toList.flatMap String.utf8EncodeChar

def named (space : RecordId) (name : String) : RecordId :=
  stampNamed (ofBytes (Digest.Md5.digest (space.bytes ++ utf8 name)))

def objectNamespace : RecordId := ⟨0x6ba7b8129dad11d180b400c04fd430c8#128⟩

end RecordId

end BrokerConfig
