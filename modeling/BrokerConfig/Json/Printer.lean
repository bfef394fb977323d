import BrokerConfig.Json.Value
import BrokerConfig.Text

namespace BrokerConfig.Json

def escape (c : Char) : List Char :=
  if c = '"' then ['\\', '"']
  else if c = '\\' then ['\\', '\\']
  else if c.toNat = 0x08 then ['\\', 'b']
  else if c.toNat = 0x09 then ['\\', 't']
  else if c.toNat = 0x0A then ['\\', 'n']
  else if c.toNat = 0x0C then ['\\', 'f']
  else if c.toNat = 0x0D then ['\\', 'r']
  else if c.toNat < 0x20 then
    ['\\', 'u', '0', '0', Text.Hex.digit (c.toNat / 16), Text.Hex.digit (c.toNat % 16)]
  else [c]

def quote (s : String) : List Char :=
  '"' :: (s.toList.flatMap escape ++ ['"'])

def separated : List (List Char) → List Char
  | [] => []
  | [text] => text
  | text :: rest => text ++ ',' :: separated rest

namespace Value

mutual

def chars : Value → List Char
  | .null => ['n', 'u', 'l', 'l']
  | .bool true => ['t', 'r', 'u', 'e']
  | .bool false => ['f', 'a', 'l', 's', 'e']
  | .number n => n.chars
  | .text s => quote s
  | .array items => '[' :: (separated (itemTexts items) ++ [']'])
  | .object members => '{' :: (separated (memberTexts members) ++ ['}'])

def itemTexts : List Value → List (List Char)
  | [] => []
  | item :: rest => chars item :: itemTexts rest

def memberTexts : List (String × Value) → List (List Char)
  | [] => []
  | (key, value) :: rest => (quote key ++ ':' :: chars value) :: memberTexts rest

end

def print (v : Value) : String := String.ofList v.chars

end Value

def Mapping.print (m : Mapping) : String := (Value.ofMapping m).print

end BrokerConfig.Json
