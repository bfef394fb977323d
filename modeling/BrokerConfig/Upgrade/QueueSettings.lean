import BrokerConfig.Upgrade.TwoPass

/-!
From 0.2 to 0.3. Settings that a queue keeps in its nested arguments under wire names become
attributes of the queue under model names. An attribute that the queue already has is kept.
-/

namespace BrokerConfig.Upgrade.QueueSettings

open Json

def source : String := "0.2"

def target : String := "0.3"

def sharedGroups : String := "qpid.shared_msg_group"

def lastValueQueue : String := "qpid.last_value_queue"

def lastValueQueueKey : String := "qpid.last_value_queue_key"

def lastValueAttribute : String := "lvqKey"

def lastValueDefault : String := "qpid.LVQ_key"

def modelNames : List (String × String) :=
  [("x-qpid-minimum-alert-repeat-gap", "alertRepeatGap"),
    ("x-qpid-maximum-message-age", "alertThresholdMessageAge"),
    ("x-qpid-maximum-message-size", "alertThresholdMessageSize"),
    ("x-qpid-maximum-message-count", "alertThresholdQueueDepthMessages"),
    ("x-qpid-maximum-queue-depth", "alertThresholdQueueDepthBytes"),
    ("qpid.alert_count", "alertThresholdQueueDepthMessages"),
    ("qpid.alert_size", "alertThresholdQueueDepthBytes"),
    ("qpid.alert_repeat_gap", "alertRepeatGap"),
    ("x-qpid-capacity", "queueFlowControlSizeBytes"),
    ("qpid.max_size", "queueFlowControlSizeBytes"),
    ("x-qpid-flow-resume-capacity", "queueFlowResumeSizeBytes"),
    ("x-qpid-priorities", "priorities"),
    ("x-qpid-description", "description"),
    (Attribute.deadLetterEnabled, Attribute.deadLetterEnabled),
    ("x-qpid-maximum-delivery-count", "maximumDeliveryAttempts"),
    ("qpid.group_header_key", "messageGroupKey"),
    (sharedGroups, "messageGroupSharedGroups"),
    ("qpid.default-message-group", "messageGroupDefaultGroup"),
    (lastValueQueueKey, lastValueAttribute),
    ("qpid.queue_sort_key", "sortKey")]

def modelName? (wire : String) : Option String :=
  (Keyed.find? Prod.fst wire modelNames).map Prod.snd

def isSharedFlag : Value → Bool
  | .bool b => b
  | .number n => n = .integer 1
  | .text s => s = "1"
  | _ => false

def modelValue (wire : String) (value : Value) : Value :=
  if wire = sharedGroups then .bool (isSharedFlag value) else value

def promote (model : Mapping) (argument : String × Value) : Mapping :=
  match modelName? argument.1 with
  | some name => model.insert name (modelValue argument.1 argument.2)
  | none => model

def toModel (arguments : Mapping) : Mapping :=
  let model := arguments.entries.foldl promote OrderedMap.empty
  if arguments.contains lastValueQueue && !arguments.contains lastValueQueueKey then
    model.insert lastValueAttribute (.text lastValueDefault)
  else model

def flatten (queue : Record) : Record :=
  let model := match queue.arguments? with
    | some arguments => toModel arguments
    | none => OrderedMap.empty
  queue.withAttributes (model.insertAll queue.attributes)

def visit (r : Record) : Pass Unit Unit :=
  if r.isRoot then Pass.moveTo target r
  else if r.isCategory Category.queue then Pass.update (flatten r)
  else pure ()

def passes : TwoPass := .recordwise visit

end BrokerConfig.Upgrade.QueueSettings
