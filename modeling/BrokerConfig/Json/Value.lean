import BrokerConfig.OrderedMap
import BrokerConfig.Json.Number

namespace BrokerConfig.Json

inductive Value
  | null
  | bool (b : Bool)
  | number (n : Number)
  | text (s : String)
  | array (items : List Value)
  | object (members : List (String × Value))

abbrev Mapping := OrderedMap String Value

namespace Value

mutual

def decEq : (v w : Value) → Decidable (v = w)
  | .null, .null => isTrue rfl
  | .bool a, .bool b => decidable_of_iff (a = b) (by simp)
  | .number m, .number n => decidable_of_iff (m = n) (by simp)
  | .text s, .text t => decidable_of_iff (s = t) (by simp)
  | .array xs, .array ys => @decidable_of_iff _ (xs = ys) (by simp) (decEqItems xs ys)
  | .object ms, .object ns => @decidable_of_iff _ (ms = ns) (by simp) (decEqMembers ms ns)
  | .null, .bool _ | .null, .number _ | .null, .text _ | .null, .array _ | .null, .object _
  | .bool _, .null | .bool _, .number _ | .bool _, .text _ | .bool _, .array _
  | .bool _, .object _
  | .number _, .null | .number _, .bool _ | .number _, .text _ | .number _, .array _
  | .number _, .object _
  | .text _, .null | .text _, .bool _ | .text _, .number _ | .text _, .array _
  | .text _, .object _
  | .array _, .null | .array _, .bool _ | .array _, .number _ | .array _, .text _
  | .array _, .object _
  | .object _, .null | .object _, .bool _ | .object _, .number _ | .object _, .text _
  | .object _, .array _ => isFalse (by simp)

def decEqItems : (xs ys : List Value) → Decidable (xs = ys)
  | [], [] => isTrue rfl
  | [], _ :: _ | _ :: _, [] => isFalse (by simp)
  | x :: xs, y :: ys =>
    have := decEq x y
    have := decEqItems xs ys
    decidable_of_iff (x = y ∧ xs = ys) (by simp)

def decEqMembers : (ms ns : List (String × Value)) → Decidable (ms = ns)
  | [], [] => isTrue rfl
  | [], _ :: _ | _ :: _, [] => isFalse (by simp)
  | (j, v) :: ms, (k, w) :: ns =>
    have := decEq v w
    have := decEqMembers ms ns
    decidable_of_iff (j = k ∧ v = w ∧ ms = ns) (by simp [and_assoc])

end

instance : DecidableEq Value := decEq

mutual

def same : Value → Value → Bool
  | .null, .null => true
  | .bool a, .bool b => a = b
  | .number m, .number n => m.same n
  | .text s, .text t => s = t
  | .array xs, .array ys => sameItems xs ys
  | .object ms, .object ns => ms.length = ns.length && sameMembers ms ns
  | _, _ => false

def sameItems : List Value → List Value → Bool
  | [], [] => true
  | x :: xs, y :: ys => same x y && sameItems xs ys
  | _, _ => false

def sameMembers : List (String × Value) → List (String × Value) → Bool
  | [], _ => true
  | (k, v) :: ms, ns =>
    (match Keyed.find? Prod.fst k ns with
      | some (_, w) => same v w
      | none => false) && sameMembers ms ns

end

/-- An object as a mapping, a repeated key collapsed to its first place and last value. -/
def asMapping? : Value → Option Mapping
  | .object members => some (OrderedMap.ofList members)
  | _ => none

def ofMapping (m : Mapping) : Value := .object m.entries

def asText? : Value → Option String
  | .text s => some s
  | _ => none

def asArray? : Value → Option (List Value)
  | .array items => some items
  | _ => none

def asBool? : Value → Option Bool
  | .bool b => some b
  | _ => none

def isNull : Value → Bool
  | .null => true
  | _ => false

def member? (v : Value) (k : String) : Option Value :=
  v.asMapping?.bind (·.get? k)

end Value

theorem Value.asMapping?_ofMapping (m : Mapping) : (Value.ofMapping m).asMapping? = some m := by
  simp [Value.asMapping?, Value.ofMapping, OrderedMap.ofList_entries]

def Mapping.same (m n : Mapping) : Bool :=
  m.entries.length = n.entries.length && Value.sameMembers m.entries n.entries

end BrokerConfig.Json
