import BrokerConfig.Record.Attribute
import BrokerConfig.Record.Category
import BrokerConfig.Json.Value
import BrokerConfig.Record.Id
import BrokerConfig.SortedMap

namespace BrokerConfig

open Json

abbrev Attributes := Mapping

abbrev Parents := SortedMap RecordId

structure Record where
  id : RecordId
  /-- The category tag as it is persisted, short or qualified. -/
  category : String
  attributes : Attributes
  parents : Parents
  deriving DecidableEq

namespace Record

def bare (id : RecordId) (category : String) : Record :=
  ⟨id, category, OrderedMap.empty, SortedMap.empty⟩

def shortCategory (r : Record) : String := Category.short r.category

def isCategory (r : Record) (short : String) : Bool := r.shortCategory = short

def isRoot (r : Record) : Bool := r.isCategory Category.virtualHost

def attribute? (r : Record) (key : String) : Option Value := r.attributes.get? key

def textAttribute? (r : Record) (key : String) : Option String :=
  (r.attribute? key).bind Value.asText?

def hasAttribute (r : Record) (key : String) : Bool := r.attributes.contains key

def name? (r : Record) : Option String := r.textAttribute? Attribute.name

def parent? (r : Record) (category : String) : Option RecordId := r.parents.get? category

def arguments? (r : Record) : Option Mapping :=
  (r.attribute? Attribute.arguments).bind Value.asMapping?

def withCategory (r : Record) (category : String) : Record := { r with category }

def withAttributes (r : Record) (attributes : Attributes) : Record := { r with attributes }

def withAttribute (r : Record) (key : String) (value : Value) : Record :=
  r.withAttributes (r.attributes.insert key value)

def withoutAttribute (r : Record) (key : String) : Record :=
  r.withAttributes (r.attributes.erase key)

def withParents (r : Record) (parents : Parents) : Record := { r with parents }

def withParent (r : Record) (category : String) (id : RecordId) : Record :=
  r.withParents (r.parents.insert category id)

def withVersion (r : Record) (version : String) : Record :=
  r.withAttribute Attribute.modelVersion (.text version)

def same (r s : Record) : Bool :=
  r.id = s.id && r.category = s.category && Mapping.same r.attributes s.attributes &&
    r.parents = s.parents

def describe (r : Record) : String :=
  let entity := r.category ++ "[" ++ r.id.print ++ "]"
  match r.name? with
  | some name => entity ++ " '" ++ name ++ "'"
  | none => entity

theorem attribute?_eq_none {r : Record} {key : String} (h : r.hasAttribute key = false) :
    r.attribute? key = none := by
  simpa [hasAttribute, attribute?, OrderedMap.contains] using h

theorem attribute?_withAttribute (r : Record) (key other : String) (value : Value) :
    (r.withAttribute key value).attribute? other =
      if key = other then some value else r.attribute? other :=
  OrderedMap.get?_insert ..

theorem attribute?_withoutAttribute (r : Record) (key other : String) :
    (r.withoutAttribute key).attribute? other =
      if other = key then none else r.attribute? other :=
  OrderedMap.get?_erase ..

end Record

end BrokerConfig
