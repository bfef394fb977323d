import BrokerConfig.Record.Category
import BrokerConfig.Record.Id

namespace BrokerConfig.Upgrade

structure Config where
  virtualHost : String
  deadLetterSuffix : String
  deriving DecidableEq

namespace Config

def defaultSuffix : String := "_DLE"

def default : Config := ⟨"default", defaultSuffix⟩

def ofHost (virtualHost : String) : Config := { default with virtualHost }

def withSuffix (c : Config) (deadLetterSuffix : String) : Config := { c with deadLetterSuffix }

def ofEnvironment (virtualHost : String) (suffix : Option String) : Config :=
  match suffix with
  | none | some "" => ofHost virtualHost
  | some suffix => (ofHost virtualHost).withSuffix suffix

end Config

inductive DefaultExchange
  | direct
  | topic
  | fanout
  | headers
  deriving DecidableEq

namespace DefaultExchange

def all : List DefaultExchange := [direct, topic, fanout, headers]

def name : DefaultExchange → String
  | direct => "amq.direct"
  | topic => "amq.topic"
  | fanout => "amq.fanout"
  | headers => "amq.match"

def routing : DefaultExchange → String
  | direct => "direct"
  | topic => "topic"
  | fanout => "fanout"
  | headers => "headers"

def ofName? (name : String) : Option DefaultExchange := all.find? fun e => e.name = name

theorem mem_all (e : DefaultExchange) : e ∈ all := by
  cases e <;> simp [all]

instance {p : DefaultExchange → Prop} [DecidablePred p] : Decidable (∀ e, p e) :=
  decidable_of_iff (∀ e ∈ all, p e) ⟨fun h e => h e (mem_all e), fun h e _ => h e⟩

end DefaultExchange

def exchangeId (virtualHost exchange : String) : RecordId :=
  RecordId.named RecordId.objectNamespace
    (Category.exchange ++ "/" ++ virtualHost ++ "/" ++ exchange)

structure Host where
  config : Config
  defaultId : DefaultExchange → RecordId

namespace Host

def ofConfig (config : Config) : Host :=
  let direct := exchangeId config.virtualHost DefaultExchange.direct.name
  let topic := exchangeId config.virtualHost DefaultExchange.topic.name
  let fanout := exchangeId config.virtualHost DefaultExchange.fanout.name
  let headers := exchangeId config.virtualHost DefaultExchange.headers.name
  { config
    defaultId := fun
      | .direct => direct
      | .topic => topic
      | .fanout => fanout
      | .headers => headers }

def isDefaultId (host : Host) (id : RecordId) : Bool :=
  DefaultExchange.all.any fun e => host.defaultId e = id

def deadLetterName (host : Host) (queue : String) : String :=
  queue ++ host.config.deadLetterSuffix

theorem defaultId_ofConfig (config : Config) (e : DefaultExchange) :
    (ofConfig config).defaultId e = exchangeId config.virtualHost e.name := by
  cases e <;> rfl

end Host

end BrokerConfig.Upgrade
