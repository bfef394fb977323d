import BrokerConfig.Json.Tree
import BrokerConfig.Json.Value

namespace BrokerConfig.Json

def maxDepth : Nat := 127

namespace Value

def ofScalar? : Scalar → Option Value
  | .null => some .null
  | .bool b => some (.bool b)
  | .number literal => (Number.ofLiteral? literal).map .number
  | .text points => (textOfPoints? points).map .text

mutual

def ofTree? (depth : Nat) : Tree → Option Value
  | .scalar s => ofScalar? s
  | .array items =>
    if depth = 0 then none else (ofItems? (depth - 1) items).map .array
  | .object members =>
    if depth = 0 then none
    else (ofMembers? (depth - 1) members).map fun ms => .object (OrderedMap.ofList ms).entries

def ofItems? (depth : Nat) : List Tree → Option (List Value)
  | [] => some []
  | item :: rest =>
    match ofTree? depth item, ofItems? depth rest with
    | some v, some vs => some (v :: vs)
    | _, _ => none

def ofMembers? (depth : Nat) : List (List Nat × Tree) → Option (List (String × Value))
  | [] => some []
  | (points, tree) :: rest =>
    match textOfPoints? points, ofTree? depth tree, ofMembers? depth rest with
    | some key, some v, some ms => some ((key, v) :: ms)
    | _, _, _ => none

end

def ofText? (s : String) : Option Value :=
  (Tree.ofText? s).bind (ofTree? maxDepth)

end Value

namespace Mapping

def ofTree? (depth : Nat) (tree : Tree) : Option Mapping :=
  (Value.ofTree? depth tree).bind Value.asMapping?

def ofText? (s : String) : Option Mapping :=
  (Value.ofText? s).bind Value.asMapping?

end Mapping

end BrokerConfig.Json
