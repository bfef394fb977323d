import BrokerConfig.Proofs.QueueAttributes
import BrokerConfig.Upgrade.Step

namespace BrokerConfig

theorem Record.isCategory_iff {r : Record} {short : String} :
    r.isCategory short = true ↔ r.shortCategory = short := by
  simp [Record.isCategory]

theorem Record.isCategory_eq_false {r : Record} {short : String} (h : r.isCategory short)
    (other : String) (hne : short ≠ other) : r.isCategory other = false := by
  rw [isCategory_iff] at h
  simpa [isCategory, h] using hne

theorem Record.isRoot_eq_false {r : Record} {short : String} (h : r.isCategory short)
    (hne : short ≠ Category.virtualHost) : r.isRoot = false :=
  isCategory_eq_false h Category.virtualHost hne

theorem Record.isRoot_iff {r : Record} :
    r.isRoot = true ↔ r.shortCategory = Category.virtualHost :=
  isCategory_iff

namespace Upgrade

def changeable (short : String) : List String :=
  if short = Category.virtualHost then [Attribute.modelVersion]
  else if short = Category.exchange then [Attribute.bindings, Attribute.durableBindings]
  else if short = Category.binding then [Attribute.arguments]
  else if short = Category.queue then
    [Attribute.exclusive, Attribute.owner, Attribute.durable, Attribute.alternateExchange,
      Attribute.bindings]
  else []

structure Revises (r u : Record) : Prop where
  id : u.id = r.id
  category : u.shortCategory = r.shortCategory
  parents : u.parents = r.parents
  kept : ∀ key ∉ changeable r.shortCategory, ∀ value, r.attribute? key = some value →
    u.attribute? key = some value
  added : r.shortCategory ≠ Category.queue → ∀ key ∉ changeable r.shortCategory,
    r.attribute? key = none → u.attribute? key = none

namespace Revises

variable {r u v : Record}

theorem refl (r : Record) : Revises r r :=
  ⟨rfl, rfl, rfl, fun _ _ _ h => h, fun _ _ _ h => h⟩

theorem trans (h : Revises r u) (k : Revises u v) : Revises r v where
  id := k.id.trans h.id
  category := k.category.trans h.category
  parents := k.parents.trans h.parents
  kept key hk value hv := k.kept key (h.category ▸ hk) value (h.kept key hk value hv)
  added hq key hk hn :=
    k.added (h.category ▸ hq) key (h.category ▸ hk) (h.added hq key hk hn)

theorem isCategory (h : Revises r u) (short : String) : u.isCategory short = r.isCategory short := by
  simp only [Record.isCategory, h.category]

theorem isRoot (h : Revises r u) : u.isRoot = r.isRoot := h.isCategory _

theorem of_attributes {attributes : Attributes}
    (h : ∀ key ∉ changeable r.shortCategory, attributes.get? key = r.attribute? key) :
    Revises r (r.withAttributes attributes) where
  id := rfl
  category := rfl
  parents := rfl
  kept key hk _ hv := (h key hk).trans hv
  added _ key hk hn := (h key hk).trans hn

theorem withAttribute {key : String} (value : Json.Value)
    (h : key ∈ changeable r.shortCategory) : Revises r (r.withAttribute key value) := by
  apply of_attributes
  intro other ho
  have hne : key ≠ other := by rintro rfl; exact ho h
  exact (Record.attribute?_withAttribute r key other value).trans (if_neg hne)

theorem withoutAttribute {key : String} (h : key ∈ changeable r.shortCategory) :
    Revises r (r.withoutAttribute key) := by
  apply of_attributes
  intro other ho
  have hne : other ≠ key := by rintro rfl; exact ho h
  exact (Record.attribute?_withoutAttribute r key other).trans (if_neg hne)

theorem withVersion (version : String) (h : r.shortCategory = Category.virtualHost) :
    Revises r (r.withVersion version) :=
  withAttribute _ (by simp [changeable, h])

theorem withShortCategory (r : Record) : Revises r (r.withCategory r.shortCategory) :=
  ⟨rfl, Category.short_short _, rfl, fun _ _ _ h => h, fun _ _ _ h => h⟩

theorem prune? {topicId : RecordId} {records : RecordSet}
    (h : r.shortCategory = Category.binding)
    (hp : Selectors.prune? topicId records r = some u) : Revises r u := by
  have hc : Attribute.arguments ∈ changeable r.shortCategory := by
    rw [h]
    decide
  unfold Selectors.prune? at hp
  split at hp
  · split at hp
    · cases hp
      exact withAttribute _ hc
    · cases hp
  · cases hp

theorem flatten (h : r.shortCategory = Category.queue) :
    Revises r (QueueSettings.flatten r) where
  id := rfl
  category := rfl
  parents := rfl
  kept key _ value hv := by
    rw [QueueSettings.attribute?_flatten, QueueSettings.flattened, hv]
    rfl
  added hq := absurd h hq

theorem revise (h : r.shortCategory = Category.queue) : Revises r (QueuePolicy.revise r) := by
  apply of_attributes
  intro key hk
  rw [h] at hk
  have hne : key ≠ Attribute.exclusive ∧ key ≠ Attribute.owner ∧ key ≠ Attribute.durable := by
    refine ⟨?_, ?_, ?_⟩ <;> rintro rfl <;> exact hk (by decide)
  exact (congrFun (QueuePolicy.attribute?_revise r) key).trans
    (QueuePolicy.governed_of_other _ hne.1 hne.2.1 hne.2.2)

theorem withAlternate (exchange : RecordId) (h : r.shortCategory = Category.queue) :
    Revises r (MissingExchanges.withAlternate r exchange) :=
  withAttribute _ (by rw [h]; decide)

theorem withoutBindings (h : r.shortCategory = Category.queue) :
    Revises r (r.withoutAttribute Attribute.bindings) :=
  withoutAttribute (by rw [h]; decide)

theorem withDurable (entries : List Json.Value) (h : r.shortCategory = Category.exchange) :
    Revises r (BindingLists.withDurable r entries) := by
  apply of_attributes
  intro key hk
  rw [h] at hk
  have hb : key ≠ Attribute.bindings := by rintro rfl; exact hk (by decide)
  have hd : Attribute.durableBindings ≠ key := by rintro rfl; exact hk (by decide)
  rw [OrderedMap.get?_insert, if_neg hd, OrderedMap.get?_erase, if_neg hb]
  rfl

end Revises

end Upgrade

end BrokerConfig
