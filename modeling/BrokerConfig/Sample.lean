import BrokerConfig.Upgrade.Step

namespace BrokerConfig.Sample

open Json

def hostName : String := "test"

abbrev Supply := Nat → RecordId

def host (id : RecordId) (version : Option String) : Record :=
  let r := (Record.bare id Category.virtualHost).withAttribute Attribute.name (.text hostName)
  match version with
  | some version => r.withVersion version
  | none => r

def entity (id : RecordId) (category name : String) (root : RecordId) : Record :=
  (Record.bare id category).withAttribute Attribute.name (.text name)
    |>.withParent Category.virtualHost root

def binding (id : RecordId) (category name : String) (exchange queue : RecordId) : Record :=
  (Record.bare id category).withAttribute Attribute.name (.text name)
    |>.withParent Category.exchange exchange
    |>.withParent Category.queue queue

def legacy (id : Supply) : List Record :=
  let tag := Category.qualified
  let root := (Record.bare (id 0) (tag Category.virtualHost)).withAttribute Attribute.name
    (.text hostName)
  let exchange := (entity (id 1) (tag Category.exchange) "orders.direct" (id 0)).withAttribute
    Attribute.type (.text "direct")
  let queue := (entity (id 2) (tag Category.queue) "orders" (id 0))
    |>.withAttribute Attribute.exclusive (.bool false)
    |>.withAttribute Attribute.owner (.text "alice")
    |>.withAttribute Attribute.arguments
      (.object [("x-qpid-priorities", .number (.integer 10)), ("qpid.shared_msg_group", .text "1")])
  let deadLetterQueue := (entity (id 3) (tag Category.queue) "payments" (id 0))
    |>.withAttribute Attribute.exclusive (.bool true)
    |>.withAttribute Attribute.arguments (.object [(Attribute.deadLetterEnabled, .bool true)])
  let selector : Value := .object [("x-filter-jms-selector", .text "priority > 5")]
  let topic := Upgrade.exchangeId hostName Upgrade.DefaultExchange.topic.name
  [binding (id 6) (tag Category.binding) "gone" (id 1) (id 7),
    (binding (id 5) (tag Category.binding) "orders.#" topic (id 2)).withAttribute
      Attribute.arguments selector,
    (binding (id 4) (tag Category.binding) "orders.key" (id 1) (id 2)).withAttribute
      Attribute.arguments selector,
    queue, deadLetterQueue, exchange, root]

def bindingForms (id : Supply) : List Record :=
  let exchange := (entity (id 1) Category.exchange "ex" (id 0))
    |>.withAttribute Attribute.type (.text "direct")
    |>.withAttribute Attribute.bindings (.array
      [.object [(Attribute.name, .text "inline"), (Attribute.queue, .text (id 2).print)]])
  let queue := (entity (id 2) Category.queue "q" (id 0)).withAttribute Attribute.bindings (.array
    [.object
      [(Attribute.name, .text "from-queue"), (Attribute.exchange, .text "ex"),
        (Attribute.arguments, .object [("x-match", .text "any")])]])
  [binding (id 3) Category.binding "standalone" (id 1) (id 2), queue, exchange]

def bindingModel (id : Supply) : List Record := host (id 0) (some "6.1") :: bindingForms id

def current (id : Supply) : List Record :=
  let queue := (entity (id 1) Category.queue "q" (id 0)).withAttribute Attribute.durable (.bool true)
  let exchange := (entity (id 2) Category.exchange "ex" (id 0))
    |>.withAttribute Attribute.type (.text "fanout")
    |>.withAttribute Attribute.durableBindings (.array
      [.object [(Attribute.bindingKey, .text "k"), (Attribute.destination, .text "q")]])
  [host (id 0) (some Upgrade.currentVersion), queue, exchange]

end BrokerConfig.Sample
