import BrokerConfig.Json.Printer
import BrokerConfig.Json.Reader
import BrokerConfig.Record.Basic

/-!
The JSON text of records. A record is written as an object of four members in a fixed order. It is
read from such an object in any order, with unknown members skipped unread, or from an array of the
four in order; attributes and parents may be absent.
-/

namespace BrokerConfig

open Json

namespace Json.Tree

def asText? : Tree → Option String
  | .scalar (.text points) => textOfPoints? points
  | _ => none

def asMembers? : Tree → Option (List (String × Tree))
  | .object members => members.mapM fun member =>
      (textOfPoints? member.1).map fun key => (key, member.2)
  | _ => none

def membersOf (key : String) (members : List (String × Tree)) : List Tree :=
  (members.filter fun member => member.1 = key).map Prod.snd

def field? {α : Type} (key : String) (read? : Tree → Option α) (absent : Option α)
    (members : List (String × Tree)) : Option α :=
  match membersOf key members with
  | [] => absent
  | [tree] => read? tree
  | _ => none

end Json.Tree

namespace Record

namespace Field

def id : String := "id"

def type : String := "type"

def attributes : String := "attributes"

def parents : String := "parents"

end Field

def parentsValue (parents : Parents) : Value :=
  .object (parents.entries.map fun entry => (entry.1, .text entry.2.print))

def toValue (r : Record) : Value :=
  .object
    [(Field.id, .text r.id.print), (Field.type, .text r.category),
      (Field.attributes, Value.ofMapping r.attributes), (Field.parents, parentsValue r.parents)]

def print (r : Record) : String := r.toValue.print

def idOfTree? (tree : Tree) : Option RecordId :=
  tree.asText?.bind RecordId.ofText?

def attributesOfTree? (tree : Tree) : Option Attributes :=
  -- the record itself is the outermost container
  Mapping.ofTree? (maxDepth - 1) tree

def parentsOfTree? (tree : Tree) : Option Parents := do
  let members ← tree.asMembers?
  let entries ← members.mapM fun member => (idOfTree? member.2).map fun id => (member.1, id)
  return SortedMap.ofList entries

def ofMembers? (members : List (String × Tree)) : Option Record := do
  let id ← Tree.field? Field.id idOfTree? none members
  let category ← Tree.field? Field.type Tree.asText? none members
  let attributes ← Tree.field? Field.attributes attributesOfTree? (some OrderedMap.empty) members
  let parents ← Tree.field? Field.parents parentsOfTree? (some SortedMap.empty) members
  return ⟨id, category, attributes, parents⟩

def ofItems? : List Tree → Option Record
  | id :: category :: rest => do
    let id ← idOfTree? id
    let category ← category.asText?
    match rest with
    | [] => return bare id category
    | [attributes] => return (bare id category).withAttributes (← attributesOfTree? attributes)
    | [attributes, parents] =>
      return ⟨id, category, ← attributesOfTree? attributes, ← parentsOfTree? parents⟩
    | _ => none
  | _ => none

def ofTree? : Tree → Option Record
  | .array items => ofItems? items
  | tree => tree.asMembers?.bind ofMembers?

def ofText? (s : String) : Option Record := (Tree.ofText? s).bind ofTree?

end Record

namespace Parents

def ofText? (s : String) : Option Parents := (Tree.ofText? s).bind Record.parentsOfTree?

end Parents

end BrokerConfig
