import BrokerConfig.Record.Text
import BrokerConfig.Upgrade.Host

namespace BrokerConfig.Upgrade.Config

open Json

def hostField : String := "virtualHostName"

def suffixField : String := "deadLetterExchangeSuffix"

def toValue (c : Config) : Value :=
  .object [(hostField, .text c.virtualHost), (suffixField, .text c.deadLetterSuffix)]

def print (c : Config) : String := c.toValue.print

def ofMembers? (members : List (String × Tree)) : Option Config := do
  let host ← Tree.field? hostField Tree.asText? (some default.virtualHost) members
  let suffix ← Tree.field? suffixField Tree.asText? (some default.deadLetterSuffix) members
  return ⟨host, suffix⟩

def ofItems? : List Tree → Option Config
  | [] => some default
  | [host] => host.asText?.map ofHost
  | [host, suffix] => do return ⟨← host.asText?, ← suffix.asText?⟩
  | _ => none

def ofTree? : Tree → Option Config
  | .array items => ofItems? items
  | tree => tree.asMembers?.bind ofMembers?

def ofText? (s : String) : Option Config := (Tree.ofText? s).bind ofTree?

end BrokerConfig.Upgrade.Config
