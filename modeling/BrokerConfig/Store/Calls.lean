import BrokerConfig.Store

namespace BrokerConfig.Store

inductive Call
  | openWith (initial : List Record)
  | reload
  | update (create : Bool) (records : List Record)
  | remove (records : List Record)
  | create (record : Record)
  | close
  deriving DecidableEq

inductive Answer
  | opened (isNew : Bool) (records : List Record)
  | listed (records : List Record)
  | removed (ids : List RecordId)
  | done
  deriving DecidableEq

def answer : Call → StoreM Answer
  | .openWith initial => do
    let isNew ← openWith initial
    return .opened isNew (← get).contents.records
  | .reload => do return .listed (← reload)
  | .update create records => do
    update create records
    return .done
  | .remove records => do return .removed (← remove records)
  | .create record => do
    create record
    return .done
  | .close => do
    close
    return .done

structure Served where
  before : Store
  call : Call
  result : Except StoreError Answer
  after : Store

def serve (store : Store) (call : Call) : Served :=
  match answer call store with
  | .ok a after => ⟨store, call, .ok a, after⟩
  | .error e after => ⟨store, call, .error e, after⟩

def session (store : Store) : List Call → List Served
  | [] => []
  | call :: rest => serve store call :: session (serve store call).after rest

end BrokerConfig.Store
