import BrokerConfig.Record.Basic

namespace BrokerConfig.Live

structure Ref where
  index : Nat
  deriving DecidableEq

structure ListenerId where
  index : Nat
  deriving DecidableEq

structure Entity where
  id : RecordId
  category : String
  durable : Bool
  attributes : Attributes
  parents : Parents
  children : List Ref
  listeners : List ListenerId
  deriving DecidableEq

namespace Entity

def ofRecord (r : Record) : Entity :=
  { id := r.id
    category := r.shortCategory
    durable := ((r.attribute? Attribute.durable).bind Json.Value.asBool?).getD true
    attributes := r.attributes
    parents := r.parents
    children := []
    listeners := [] }

def toRecord (o : Entity) : Record := ⟨o.id, o.category, o.attributes, o.parents⟩

def isVirtualHost (o : Entity) : Bool := o.category = Category.virtualHost

def describe (o : Entity) : String := o.category ++ "[" ++ o.id.print ++ "]"

def adopt (o : Entity) (child : Ref) : Entity :=
  { o with children := o.children ++ [child] }

def withAttribute (o : Entity) (key : String) (value : Json.Value) : Entity :=
  { o with attributes := o.attributes.insert key value }

def hasListener (o : Entity) (l : ListenerId) : Bool := l ∈ o.listeners

def listen (o : Entity) (l : ListenerId) : Entity :=
  if o.hasListener l then o else { o with listeners := o.listeners ++ [l] }

def unlisten (o : Entity) (l : ListenerId) : Entity :=
  { o with listeners := o.listeners.filter (· ≠ l) }

end Entity

end BrokerConfig.Live
