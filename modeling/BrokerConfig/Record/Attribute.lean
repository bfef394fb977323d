namespace BrokerConfig.Attribute

def name : String := "name"

def type : String := "type"

def modelVersion : String := "modelVersion"

def arguments : String := "arguments"

/-- Inline bindings of exchanges and queues, up to model version 6.1. -/
def bindings : String := "bindings"

/-- All bindings of an exchange, from model version 7.0. -/
def durableBindings : String := "durableBindings"

def alternateExchange : String := "alternateExchange"

def exclusive : String := "exclusive"

def owner : String := "owner"

def durable : String := "durable"

def lifetimePolicy : String := "lifetimePolicy"

def deadLetterEnabled : String := "x-qpid-dlq-enabled"

def bindingKey : String := "bindingKey"

def destination : String := "destination"

def queue : String := "queue"

def exchange : String := "exchange"

end BrokerConfig.Attribute
