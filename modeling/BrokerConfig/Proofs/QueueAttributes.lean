import BrokerConfig.Proofs.OrderedMaps
import BrokerConfig.Upgrade.QueuePolicy
import BrokerConfig.Upgrade.QueueSettings

namespace BrokerConfig.Upgrade

open Json

abbrev Lookup := String → Option Value

namespace QueueSettings

theorem get?_promote (model : Mapping) (argument : String × Value) (key : String) :
    (promote model argument).get? key =
      if modelName? argument.1 = some key then some (modelValue argument.1 argument.2)
      else model.get? key := by
  unfold promote
  cases modelName? argument.1 with
  | none => rfl
  | some name => simp only [OrderedMap.get?_insert, Option.some.injEq]

theorem get?_toModel_of_ne {key : String} (hk : key ≠ lastValueAttribute) (arguments : Mapping) :
    (toModel arguments).get? key =
      (arguments.entries.foldl promote OrderedMap.empty).get? key := by
  unfold toModel
  dsimp only
  split
  · exact (OrderedMap.get?_insert ..).trans (if_neg hk.symm)
  · rfl

theorem get?_toModel {key : String} (h : key ∉ modelNames.map Prod.snd) (arguments : Mapping) :
    (toModel arguments).get? key = none := by
  have hname : ∀ wire, modelName? wire ≠ some key := by
    intro wire hwire
    obtain ⟨pair, hfound, rfl⟩ := Option.map_eq_some_iff.1 hwire
    exact h (List.mem_map_of_mem (List.mem_of_find?_eq_some hfound))
  have hfold : ∀ (entries : List (String × Value)) (model : Mapping), model.get? key = none →
      (entries.foldl promote model).get? key = none := by
    intro entries
    induction entries with
    | nil => exact fun _ hm => hm
    | cons entry rest ih =>
      intro model hm
      exact ih _ ((get?_promote ..).trans ((if_neg (hname entry.1)).trans hm))
  have hlast : lastValueAttribute ∈ modelNames.map Prod.snd := by decide
  have hne : key ≠ lastValueAttribute := by
    rintro rfl
    exact h hlast
  rw [get?_toModel_of_ne hne]
  exact hfold arguments.entries OrderedMap.empty rfl

theorem modelName?_eq_deadLetter {wire : String} :
    modelName? wire = some Attribute.deadLetterEnabled ↔ wire = Attribute.deadLetterEnabled := by
  constructor
  · intro h
    obtain ⟨pair, hfound, hname⟩ := Option.map_eq_some_iff.1 h
    have hwire : pair.1 = wire := by simpa using List.find?_some hfound
    -- the toggle is the only argument that keeps its name
    have hself : ∀ pair ∈ modelNames, pair.2 = Attribute.deadLetterEnabled →
        pair.1 = Attribute.deadLetterEnabled := by decide
    exact hwire ▸ hself pair (List.mem_of_find?_eq_some hfound) hname
  · rintro rfl
    decide

theorem get?_toModel_deadLetter (arguments : Mapping) :
    (toModel arguments).get? Attribute.deadLetterEnabled =
      arguments.get? Attribute.deadLetterEnabled := by
  have hfold : ∀ (entries : List (String × Value)) (model : Mapping),
      (entries.map Prod.fst).Nodup →
      (entries.foldl promote model).get? Attribute.deadLetterEnabled =
        ((Keyed.find? Prod.fst Attribute.deadLetterEnabled entries).map Prod.snd).or
          (model.get? Attribute.deadLetterEnabled) := by
    intro entries
    induction entries with
    | nil => exact fun _ _ => rfl
    | cons entry rest ih =>
      intro model hn
      obtain ⟨hfresh, hn⟩ := List.nodup_cons.1 hn
      rw [List.foldl_cons, ih _ hn, get?_promote, Keyed.find?_cons]
      by_cases hk : entry.1 = Attribute.deadLetterEnabled
      · have hnone : Keyed.find? Prod.fst Attribute.deadLetterEnabled rest = none :=
          Keyed.find?_eq_none_iff.2 (hk ▸ hfresh)
        have hvalue : modelValue entry.1 entry.2 = entry.2 := if_neg (by rw [hk]; decide)
        rw [hnone, if_pos hk, if_pos (modelName?_eq_deadLetter.2 hk), hvalue]
        rfl
      · rw [if_neg (mt modelName?_eq_deadLetter.1 hk), if_neg hk]
  rw [get?_toModel_of_ne (by decide), hfold _ _ arguments.distinct, OrderedMap.get?_empty,
    Option.or_none]
  rfl

def modelOf (arguments : Option Value) : Mapping :=
  match arguments.bind Value.asMapping? with
  | some arguments => toModel arguments
  | none => OrderedMap.empty

def flattened (look : Lookup) : Lookup := fun key =>
  (look key).or ((modelOf (look Attribute.arguments)).get? key)

theorem attribute?_flatten (q : Record) : (flatten q).attribute? = flattened q.attribute? := by
  funext key
  unfold flatten
  dsimp only
  rw [Record.attribute?, Record.withAttributes, OrderedMap.get?_insertAll]
  rfl

theorem get?_modelOf {key : String} (h : key ∉ modelNames.map Prod.snd)
    (arguments : Option Value) : (modelOf arguments).get? key = none := by
  unfold modelOf
  split
  · exact get?_toModel h _
  · rfl

theorem flattened_of_not_model (look : Lookup) (key : String)
    (h : key ∉ modelNames.map Prod.snd) : flattened look key = look key := by
  rw [flattened, get?_modelOf h, Option.or_none]

theorem get?_modelOf_deadLetter (q : Record) :
    (modelOf (q.attribute? Attribute.arguments)).get? Attribute.deadLetterEnabled =
      q.arguments?.bind fun arguments => arguments.get? Attribute.deadLetterEnabled := by
  show (modelOf (q.attribute? Attribute.arguments)).get? _ =
    ((q.attribute? Attribute.arguments).bind Value.asMapping?).bind _
  unfold modelOf
  cases (q.attribute? Attribute.arguments).bind Value.asMapping? with
  | none => rfl
  | some arguments => exact get?_toModel_deadLetter arguments

end QueueSettings

namespace QueuePolicy

def asPolicy : Value → Value
  | .bool b => .text (policy b)
  | other => other

def governed (look : Lookup) : Lookup := fun key =>
  if key = Attribute.exclusive then (look key).map asPolicy
  else if key = Attribute.owner then
    if look Attribute.exclusive = some (.bool true) then look key else none
  else if key = Attribute.durable then (look key).or (some (.bool true))
  else look key

theorem get?_withPolicy (attributes : Attributes) (key : String) :
    (withPolicy attributes).get? key =
      if key = Attribute.exclusive then (attributes.get? key).map asPolicy
      else if key = Attribute.owner then
        if attributes.get? Attribute.exclusive = some (.bool true) then attributes.get? key else none
      else attributes.get? key := by
  have hne : Attribute.exclusive ≠ Attribute.owner := by decide
  unfold withPolicy
  split
  · rename_i h
    by_cases he : key = Attribute.exclusive
    · simp [OrderedMap.get?_insert, he, h, asPolicy]
    · simp [OrderedMap.get?_insert, he, Ne.symm he, h]
  · rename_i h
    by_cases he : key = Attribute.exclusive
    · simp [OrderedMap.get?_insert, OrderedMap.get?_erase, he, hne, h, asPolicy]
    · simp [OrderedMap.get?_insert, OrderedMap.get?_erase, he, Ne.symm he, h]
  · rename_i htrue hfalse
    by_cases he : key = Attribute.exclusive
    · rw [OrderedMap.get?_erase, if_neg (he ▸ hne), if_pos he, he]
      cases hv : attributes.get? Attribute.exclusive with
      | none => rfl
      | some v =>
        cases v with
        | bool b =>
          cases b with
          | true => exact absurd hv htrue
          | false => exact absurd hv hfalse
        | _ => rfl
    · have hnot : ¬attributes.get? Attribute.exclusive = some (.bool true) := htrue
      simp [OrderedMap.get?_erase, he, hnot]

theorem get?_withDurability (attributes : Attributes) (key : String) :
    (withDurability attributes).get? key =
      if key = Attribute.durable then (attributes.get? key).or (some (.bool true))
      else attributes.get? key := by
  unfold withDurability OrderedMap.contains
  cases hv : attributes.get? Attribute.durable with
  | none =>
    by_cases hd : key = Attribute.durable
    · simp [OrderedMap.get?_insert, hd, hv]
    · simp [OrderedMap.get?_insert, hd, Ne.symm hd]
  | some v => by_cases hd : key = Attribute.durable <;> simp [hd, hv]

theorem attribute?_revise (q : Record) : (revise q).attribute? = governed q.attribute? := by
  funext key
  show (withDurability (withPolicy q.attributes)).get? key = governed q.attributes.get? key
  have hexclusive : Attribute.durable ≠ Attribute.exclusive := by decide
  have howner : Attribute.durable ≠ Attribute.owner := by decide
  rw [get?_withDurability, get?_withPolicy, governed]
  by_cases hd : key = Attribute.durable
  · simp only [hd, if_true, hexclusive, howner, if_false]
  · simp only [hd, if_false]

theorem governed_of_other {key : String} (look : Lookup) (he : key ≠ Attribute.exclusive)
    (ho : key ≠ Attribute.owner) (hd : key ≠ Attribute.durable) : governed look key = look key := by
  rw [governed, if_neg he, if_neg ho, if_neg hd]

end QueuePolicy

namespace BindingLists

def unlisted (look : Lookup) : Lookup := fun key =>
  if key = Attribute.bindings then none else look key

theorem attribute?_without_bindings (q : Record) :
    (if q.hasAttribute Attribute.bindings then q.withoutAttribute Attribute.bindings
      else q).attribute? = unlisted q.attribute? := by
  funext key
  unfold unlisted
  split
  · exact Record.attribute?_withoutAttribute ..
  · rename_i hhas
    by_cases hk : key = Attribute.bindings
    · rw [if_pos hk, hk]
      exact Record.attribute?_eq_none (Bool.eq_false_iff.2 hhas)
    · rw [if_neg hk]

end BindingLists

end BrokerConfig.Upgrade
