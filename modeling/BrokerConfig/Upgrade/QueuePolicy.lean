import BrokerConfig.Upgrade.TwoPass

/-!
From 0.3 to 0.4. The exclusivity flag of a queue becomes a policy. Only a queue that was exclusive
keeps its owner, and a queue that does not say whether it is durable becomes durable.
-/

namespace BrokerConfig.Upgrade.QueuePolicy

open Json

def source : String := "0.3"

def target : String := "0.4"

def policy : Bool → String
  | true => "CONTAINER"
  | false => "NONE"

def withPolicy (attributes : Attributes) : Attributes :=
  match attributes.get? Attribute.exclusive with
  | some (.bool true) => attributes.insert Attribute.exclusive (.text (policy true))
  | some (.bool false) =>
    (attributes.insert Attribute.exclusive (.text (policy false))).erase Attribute.owner
  | _ => attributes.erase Attribute.owner

def withDurability (attributes : Attributes) : Attributes :=
  if attributes.contains Attribute.durable then attributes
  else attributes.insert Attribute.durable (.bool true)

def revise (queue : Record) : Record :=
  queue.withAttributes (withDurability (withPolicy queue.attributes))

def visit (r : Record) : Pass Unit Unit :=
  if r.isRoot then Pass.moveTo target r
  else if r.isCategory Category.queue then Pass.update (revise r)
  else pure ()

def passes : TwoPass := .recordwise visit

end BrokerConfig.Upgrade.QueuePolicy
