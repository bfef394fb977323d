import BrokerConfig.Json.Token

namespace BrokerConfig.Json

inductive Tree
  | scalar (s : Scalar)
  | array (items : List Tree)
  | object (members : List (List Nat × Tree))

namespace Tree

inductive Frame
  | items (done : List Tree)
  | members (done : List (List Nat × Tree)) (key : List Nat)

inductive Expect
  | value (stack : List Frame)
  | itemOrClose (stack : List Frame)
  | afterItem (done : List Tree) (stack : List Frame)
  | keyOrClose (stack : List Frame)
  | nextKey (done : List (List Nat × Tree)) (stack : List Frame)
  | colon (done : List (List Nat × Tree)) (key : List Nat) (stack : List Frame)
  | afterMember (done : List (List Nat × Tree)) (stack : List Frame)
  | nothing (tree : Tree)

namespace Expect

def deliver (tree : Tree) : List Frame → Expect
  | [] => .nothing tree
  | .items done :: stack => .afterItem (tree :: done) stack
  | .members done key :: stack => .afterMember ((key, tree) :: done) stack

def beginValue (stack : List Frame) : Token → Option Expect
  | .scalar s => some (deliver (.scalar s) stack)
  | .openArray => some (.itemOrClose stack)
  | .openObject => some (.keyOrClose stack)
  | _ => none

def step : Expect → Token → Option Expect
  | .value stack, token => beginValue stack token
  | .itemOrClose stack, .closeArray => some (deliver (.array []) stack)
  | .itemOrClose stack, token => beginValue (.items [] :: stack) token
  | .afterItem done stack, .comma => some (.value (.items done :: stack))
  | .afterItem done stack, .closeArray => some (deliver (.array done.reverse) stack)
  | .keyOrClose stack, .closeObject => some (deliver (.object []) stack)
  | .keyOrClose stack, .scalar (.text key) => some (.colon [] key stack)
  | .nextKey done stack, .scalar (.text key) => some (.colon done key stack)
  | .colon done key stack, .colon => some (.value (.members done key :: stack))
  | .afterMember done stack, .comma => some (.nextKey done stack)
  | .afterMember done stack, .closeObject => some (deliver (.object done.reverse) stack)
  | _, _ => none

def finish? : Expect → Option Tree
  | .nothing tree => some tree
  | _ => none

end Expect

def ofTokens? (tokens : List Token) : Option Tree :=
  (tokens.foldlM Expect.step (.value [])).bind Expect.finish?

def ofChars? (chars : List Char) : Option Tree :=
  (Token.scan? chars).bind ofTokens?

def ofText? (s : String) : Option Tree := ofChars? s.toList

end Tree

end BrokerConfig.Json
