import BrokerConfig.Live.Event
import BrokerConfig.Live.Graph

/-!
A virtual host node: its configuration store, the graph of its live objects, and the listeners that
write changes back. A store listener sits on durable objects; the node itself is followed by
listeners that attach a store listener to every virtual host that is added to it.

Each operation on objects changes the graph first and then tells the listeners, in the order in
which they were attached.
-/

namespace BrokerConfig.Live

structure Recovered where
  records : List Record
  isNew : Bool
  deriving DecidableEq

structure Node where
  name : String
  store : Store
  graph : Graph
  children : List Ref
  followers : List ListenerId
  locks : List (List RecordId)
  recovered : Option Recovered
  secureUpdates : Nat
  events : List Event
  deriving DecidableEq

namespace Node

def new (name : String) (store : Store) : Node :=
  { name, store, graph := Graph.empty, children := [], followers := [], locks := [],
    recovered := none, secureUpdates := 0, events := [] }

def report (n : Node) (e : Event) : Node := { n with events := n.events ++ [e] }

def modifyObject (n : Node) (ref : Ref) (f : Entity → Entity) : Node :=
  { n with graph := n.graph.modify ref f }

def make (n : Node) (o : Entity) : Ref × Node :=
  (n.graph.next, { n with graph := n.graph.add o })

def virtualHost? (n : Node) : Option Ref := n.children.find? n.graph.isVirtualHost

def runStore {α : Type} (n : Node) (op : StoreM α) : Except StoreError α × Node :=
  match op n.store with
  | .ok a store => (.ok a, { n with store })
  | .error e store => (.error e, { n with store })

def tryStore {α : Type} (n : Node) (op : StoreM α) (failed : StoreError → Event) : Node :=
  match n.runStore op with
  | (.ok _, n) => n
  | (.error e, n) => n.report (failed e)

def newListener (n : Node) : ListenerId × Node :=
  (⟨n.locks.length⟩, { n with locks := n.locks ++ [[]] })

def locksOf (n : Node) (l : ListenerId) : List RecordId := n.locks.getD l.index []

def lock (n : Node) (l : ListenerId) (parent : RecordId) : Node :=
  { n with locks := n.locks.modify l.index fun ids => if parent ∈ ids then ids else ids ++ [parent] }

def dropLock (n : Node) (l : ListenerId) (parent : RecordId) : Node :=
  { n with locks := n.locks.modify l.index (·.filter (· ≠ parent)) }

def listen (n : Node) (l : ListenerId) (ref : Ref) : Bool × Node :=
  match n.graph.get? ref with
  | some o => (!o.hasListener l, n.modifyObject ref (·.listen l))
  | none => (false, n)

def unlisten (n : Node) (l : ListenerId) (ref : Ref) : Bool × Node :=
  match n.graph.get? ref with
  | some o => (o.hasListener l, n.modifyObject ref (·.unlisten l))
  | none => (false, n)

def attachOne (l : ListenerId) (acc : Nat × Node) (ref : Ref) : Nat × Node :=
  match acc.2.graph.get? ref with
  | some o =>
    if o.durable then
      let (added, n) := acc.2.listen l ref
      (if added then acc.1 + 1 else acc.1, n)
    else acc
  | none => acc

/-- Attaches a listener to an object and all durable ones below it that are reached through
durable ones, and counts the objects that did not have it. -/
def attach (n : Node) (l : ListenerId) (ref : Ref) : Nat × Node :=
  (n.graph.durableWalk ref).foldl (attachOne l) (0, n)

def persistOne (l : ListenerId) (n : Node) (ref : Ref) : Node :=
  match n.graph.get? ref with
  | some o =>
    if o.durable then
      ((n.tryStore (Store.update true [o.toRecord]) (.persistFailed o)).listen l ref).2
    else n
  | none => n

def persistAndAttach (n : Node) (l : ListenerId) (ref : Ref) : Node :=
  (n.graph.durableWalk ref).foldl (persistOne l) n

def detach (n : Node) (l : ListenerId) (ref : Ref) : Node :=
  (n.graph.durableWalk ref).foldl (fun n ref => (n.unlisten l ref).2) n

def onChildAdded (l : ListenerId) (object child : Ref) (n : Node) : Node :=
  match n.graph.get? object, n.graph.get? child with
  | some o, some c =>
    if c.durable then ((n.lock l o.id).report (.persistingChild c)).persistAndAttach l child else n
  | _, _ => n

def onChildRemoved (l : ListenerId) (object child : Ref) (n : Node) : Node :=
  match n.graph.get? object with
  | some o => (n.lock l o.id).detach l child
  | none => n

def onAttributeSet (_l : ListenerId) (object : Ref) (key : String) (n : Node) : Node :=
  match n.graph.get? object with
  | some o =>
    if o.durable then
      n.tryStore (Store.update false [o.toRecord]) (.attributeFailed key o)
    else n
  | none => n

def onDeleted (l : ListenerId) (object : Ref) (n : Node) : Node :=
  match n.graph.get? object with
  | some o =>
    let n := if o.durable then n.tryStore (Store.remove [o.toRecord]) (.removeFailed o) else n
    (n.unlisten l object).2.dropLock l o.id
  | none => n

def notify (n : Node) (object : Ref) (told : ListenerId → Node → Node) : Node :=
  match n.graph.get? object with
  | some o => o.listeners.foldl (fun n l => told l n) n
  | none => n

def addChild (n : Node) (parent child : Ref) : Node :=
  let n := n.modifyObject parent (·.adopt child)
  n.notify parent fun l n => n.onChildAdded l parent child

def removeChild (n : Node) (parent : Ref) (id : RecordId) : Option Ref × Node :=
  match (n.graph.get? parent).bind fun o => o.children.find? (n.graph.hasId id) with
  | none => (none, n)
  | some child =>
    let n := n.modifyObject parent fun o =>
      { o with children := o.children.eraseP (n.graph.hasId id) }
    (some child, n.notify parent fun l n => n.onChildRemoved l parent child)

def setAttribute (n : Node) (object : Ref) (key : String) (value : Json.Value) : Node :=
  let n := n.modifyObject object (·.withAttribute key value)
  n.notify object fun l n => n.onAttributeSet l object key

/-- Tells the listeners of an object that it was deleted; the object itself stays. -/
def delete (n : Node) (object : Ref) : Node :=
  n.notify object fun l n => n.onDeleted l object

def onHostAdded (l : ListenerId) (child : Ref) (n : Node) : Node :=
  match n.graph.get? child with
  | some c =>
    if c.isVirtualHost then (n.report (.hostAdded c.id)).persistAndAttach l child else n
  | none => n

def onHostRemoved (l : ListenerId) (child : Ref) (n : Node) : Node :=
  if n.graph.isVirtualHost child then (n.unlisten l child).2 else n

def addVirtualHost (n : Node) (host : Ref) : Node :=
  let n := { n with children := n.children ++ [host] }
  n.followers.foldl (fun n l => n.onHostAdded l host) n

def removeVirtualHost (n : Node) : Option Ref × Node :=
  match n.virtualHost?.bind n.graph.get? with
  | none => (none, n)
  | some host =>
    match n.children.find? (n.graph.hasId host.id) with
    | none => (none, n)
    | some child =>
      let n := { n with children := n.children.eraseP (n.graph.hasId host.id) }
      (some child, n.followers.foldl (fun n l => n.onHostRemoved l child) n)

end Node

end BrokerConfig.Live
