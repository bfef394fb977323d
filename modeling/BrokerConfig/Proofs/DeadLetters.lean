import BrokerConfig.Proofs.Stages

namespace BrokerConfig.Upgrade

open Json
open MissingExchanges (hasAlternate nameless unsettled wantsDeadLetters)

def Asks (toggle : Option Value) : Prop :=
  toggle = some (.bool true) ∨
    ∃ text, toggle = some (.text text) ∧ Text.sameIgnoringCase text "true"

def Blank (value : Option Value) : Prop := value = none ∨ value = some .null

theorem wantsDeadLetters_iff {q : Record} :
    wantsDeadLetters q ↔ Asks (q.attribute? Attribute.deadLetterEnabled) := by
  unfold wantsDeadLetters Asks
  cases q.attribute? Attribute.deadLetterEnabled with
  | none => simp
  | some value => cases value <;> simp

theorem hasAlternate_eq_false_iff {q : Record} :
    hasAlternate q = false ↔ Blank (q.attribute? Attribute.alternateExchange) := by
  unfold hasAlternate Blank
  cases q.attribute? Attribute.alternateExchange with
  | none => simp
  | some value => cases value <;> simp [Value.isNull]

theorem unsettled_iff {q : Record} (hq : q.isCategory Category.queue) :
    unsettled q ↔ Asks (q.attribute? Attribute.deadLetterEnabled) ∧
      Blank (q.attribute? Attribute.alternateExchange) := by
  rw [unsettled, hq, Bool.true_and, Bool.and_eq_true, Bool.not_eq_true', wantsDeadLetters_iff,
    hasAlternate_eq_false_iff]

namespace Follows

variable {q r : Record}

theorem attribute?_eq (h : Follows (QueuePolicy.governed ∘ QueueSettings.flattened) q r)
    (hq : q.isCategory Category.queue) (key : String) (he : key ≠ Attribute.exclusive)
    (ho : key ≠ Attribute.owner) (hd : key ≠ Attribute.durable) :
    r.attribute? key = (q.attribute? key).or
      ((QueueSettings.modelOf (q.attribute? Attribute.arguments)).get? key) := by
  rw [h.queue hq]
  exact QueuePolicy.governed_of_other _ he ho hd

theorem attribute?_same (h : Follows (QueuePolicy.governed ∘ QueueSettings.flattened) q r)
    (hq : q.isCategory Category.queue) (key : String) (he : key ≠ Attribute.exclusive)
    (ho : key ≠ Attribute.owner) (hd : key ≠ Attribute.durable)
    (hmodel : key ∉ QueueSettings.modelNames.map Prod.snd) :
    r.attribute? key = q.attribute? key := by
  rw [h.attribute?_eq hq key he ho hd, QueueSettings.get?_modelOf hmodel, Option.or_none]

theorem name? (h : Follows (QueuePolicy.governed ∘ QueueSettings.flattened) q r)
    (hq : q.isCategory Category.queue) : r.name? = q.name? := by
  unfold Record.name? Record.textAttribute?
  rw [h.attribute?_same hq _ (by decide) (by decide) (by decide) (by decide)]

theorem unsettled_iff (h : Follows (QueuePolicy.governed ∘ QueueSettings.flattened) q r)
    (hq : q.isCategory Category.queue) : unsettled r ↔
      Asks ((q.attribute? Attribute.deadLetterEnabled).or
        ((QueueSettings.modelOf (q.attribute? Attribute.arguments)).get?
          Attribute.deadLetterEnabled)) ∧
      Blank (q.attribute? Attribute.alternateExchange) := by
  rw [Upgrade.unsettled_iff ((h.revises.isCategory _).trans hq),
    h.attribute?_eq hq _ (by decide) (by decide) (by decide),
    h.attribute?_same hq Attribute.alternateExchange (by decide) (by decide) (by decide)
      (by decide)]

end Follows

end BrokerConfig.Upgrade
