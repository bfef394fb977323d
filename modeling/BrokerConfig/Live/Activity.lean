import BrokerConfig.Live.Recovery

namespace BrokerConfig.Live

def Entity.made (r : Record) (durable : Bool) : Entity :=
  { id := r.id
    category := r.category
    durable
    attributes := r.attributes
    parents := r.parents
    children := []
    listeners := [] }

inductive Action
  | make (record : Record) (durable : Bool)
  | addChild (parent child : Ref)
  | removeChild (parent : Ref) (id : RecordId)
  | setAttribute (object : Ref) (key : String) (value : Json.Value)
  | delete (object : Ref)
  | addVirtualHost (host : Ref)
  | removeVirtualHost
  deriving DecidableEq

inductive Move
  | act (a : Action)
  | upgradeAndRecover (initial : List Record)
  | reloadAndRecover
  deriving DecidableEq

namespace Node

def perform (n : Node) : Action → Node
  | .make record durable => (n.make (.made record durable)).2
  | .addChild parent child => n.addChild parent child
  | .removeChild parent id => (n.removeChild parent id).2
  | .setAttribute object key value => n.setAttribute object key value
  | .delete object => n.delete object
  | .addVirtualHost host => n.addVirtualHost host
  | .removeVirtualHost => n.removeVirtualHost.2

def run (n : Node) (actions : List Action) : Node := actions.foldl perform n

def after {α : Type} (m : NodeM α) (n : Node) : Node :=
  match m n with
  | .ok _ n => n
  | .error _ n => n

def move (p : Upgrade.Plan) (n : Node) : Move → Node
  | .act a => n.perform a
  | .upgradeAndRecover initial => after (Recovery.upgradeAndRecover p initial) n
  | .reloadAndRecover => after Recovery.reloadAndRecover n

def play (p : Upgrade.Plan) (n : Node) (moves : List Move) : Node := moves.foldl (move p) n

end Node

end BrokerConfig.Live
