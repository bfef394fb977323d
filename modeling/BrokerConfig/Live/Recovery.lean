import BrokerConfig.Live.Node
import BrokerConfig.Upgrade.Plan

namespace BrokerConfig.Live

inductive RecoveryError
  | upgrade (e : Upgrade.Failure)
  | store (e : StoreError)
  | noVirtualHost
  deriving DecidableEq

def RecoveryError.message : RecoveryError → String
  | upgrade e => "upgrade failed: " ++ e.message
  | store e => "store error: " ++ e.message
  | noVirtualHost => "graph recovery failed: no virtual host record"

abbrev NodeM := EStateM RecoveryError Node

namespace NodeM

def report (e : Event) : NodeM Unit := modify (·.report e)

def onStore {α : Type} (op : StoreM α) : NodeM α := do
  let (result, n) := (← get).runStore op
  set n
  match result with
  | .ok a => return a
  | .error e => throw (.store e)

end NodeM

namespace Recovery

def openStore (initial : List Record) : NodeM (Bool × List Record) := do
  let isNew ← NodeM.onStore (Store.openWith initial)
  let records := (← get).store.contents.records
  NodeM.report (.opened records.length isNew)
  return (isNew, records)

def upgradeRecords (p : Upgrade.Plan) (records : List Record) : NodeM Upgrade.Outcome := do
  match p.upgrade records .empty with
  | .ok outcome journal => do
    journal.events.forM fun e => NodeM.report (.upgrade e)
    return outcome
  | .error e journal => do
    journal.events.forM fun e => NodeM.report (.upgrade e)
    throw (.upgrade e)

def persist (o : Upgrade.Outcome) : NodeM Unit := do
  if !o.net.updates.isEmpty then
    NodeM.onStore (Store.update true o.net.updates.records)
  if !o.net.deletes.isEmpty then
    let _ ← NodeM.onStore (Store.remove o.net.deletes.records)
  NodeM.report (.persistedUpgrade o.net.updates.size o.net.deletes.size)

def rebuild (records : List Record) (isNew : Bool) : NodeM Unit := do
  modify fun n => { n with recovered := some ⟨records, isNew⟩, children := [] }
  if records.isEmpty then return
  match records.find? Record.isRoot with
  | none => throw .noVirtualHost
  | some root =>
    modify fun n =>
      let (host, graph) := n.graph.plant root (records.filter fun r => r.id ≠ root.id)
      { n with graph, children := [host] }

def listen : NodeM Unit := do
  let (l, n) := (← get).newListener
  set n
  match n.virtualHost? with
  | some host =>
    let (count, n) := n.attach l host
    set n
    NodeM.report (.attached count)
  | none => pure ()
  modify fun n => { n with followers := n.followers ++ [l] }

def recover (records : List Record) (isNew : Bool) : NodeM Unit := do
  NodeM.report (.recovering records.length isNew)
  rebuild records isNew
  listen
  if isNew then
    modify fun n => { n with secureUpdates := n.secureUpdates + 1 }

def upgradeAndRecover (p : Upgrade.Plan) (initial : List Record) : NodeM Bool := do
  let (isNew, records) ← openStore initial
  let outcome ← upgradeRecords p records
  if !outcome.isNoop then
    persist outcome
    NodeM.report (.hostUpgraded (← get).name outcome.source outcome.final)
  recover outcome.records.records isNew
  return isNew

def reloadAndRecover : NodeM Unit := do
  let records ← NodeM.onStore Store.reload
  recover records false

end Recovery

end BrokerConfig.Live
