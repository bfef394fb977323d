import BrokerConfig.Proofs.DeadLetters
import BrokerConfig.Proofs.LegacyBindings

namespace BrokerConfig.Upgrade.Selectors

open Json

variable {config : Config} {s t : RecordSet} {c : Changes} {b r u : Record}

def Filters (arguments : Mapping) : Prop :=
  (∃ text, arguments.get? "x-filter-jms-selector" = some (.text text) ∧
      ∃ c ∈ text.toList, Text.isSpace c = false) ∨
    Asks (arguments.get? "x-qpid-no-local")

/-- A binding to a topic exchange. The default one may still be without a record. -/
def Topical (config : Config) (s : RecordSet) (b : Record) : Prop :=
  ∃ id, b.parent? Category.exchange = some id ∧
    ((∃ x ∈ s.records, x.id = id ∧ x.attribute? Attribute.type = some (.text "topic")) ∨
      id ∉ s.ids ∧ id = exchangeId config.virtualHost "amq.topic")

def Ignored (config : Config) (s : RecordSet) (b : Record) : Prop :=
  b.isCategory Category.binding ∧ ¬Topical config s b ∧
    ∃ arguments, b.arguments? = some arguments ∧ Filters arguments

structure Stripped (b u : Record) : Prop where
  id : u.id = b.id
  category : u.category = b.category
  parents : u.parents = b.parents
  keys : u.attributes.keys = b.attributes.keys
  arguments : ∀ arguments, b.arguments? = some arguments →
    u.attribute? Attribute.arguments = some (.object (arguments.entries.filter fun entry =>
      entry.1 ≠ "x-filter-jms-selector" ∧ entry.1 ≠ "x-qpid-no-local"))
  others : ∀ key ≠ Attribute.arguments, u.attribute? key = b.attribute? key

structure Strips (config : Config) (s t : RecordSet) : Prop where
  ids : t.ids = s.ids
  ignored : ∀ b ∈ s.records, Ignored config s b → ∃ u, t.get? b.id = some u ∧ Stripped b u
  roots : ∀ r ∈ s.records, r.isRoot →
    t.get? r.id = some (r.withAttribute Attribute.modelVersion (.text "0.1"))
  others : ∀ r ∈ s.records, r.isRoot = false → ¬Ignored config s r → t.get? r.id = some r

theorem containsFilter_iff {arguments : Mapping} : containsFilter arguments ↔ Filters arguments := by
  have hselector : hasSelector arguments ↔
      ∃ text, arguments.get? "x-filter-jms-selector" = some (.text text) ∧
        ∃ c ∈ text.toList, Text.isSpace c = false := by
    unfold hasSelector selector
    cases arguments.get? "x-filter-jms-selector" with
    | none => simp
    | some value => cases value <;> simp [Text.isBlank]
  have hnoLocal : hasNoLocal arguments ↔ Asks (arguments.get? "x-qpid-no-local") := by
    unfold hasNoLocal noLocal Asks
    cases arguments.get? "x-qpid-no-local" with
    | none => simp
    | some value => cases value <;> simp
  rw [containsFilter, Bool.or_eq_true, hselector, hnoLocal, Filters]

theorem bindsTopic_iff :
    bindsTopic ((Host.ofConfig config).defaultId .topic) s b ↔ Topical config s b := by
  have htopic : (Host.ofConfig config).defaultId .topic =
      exchangeId config.virtualHost "amq.topic" := Host.defaultId_ofConfig config .topic
  unfold bindsTopic Topical
  rw [htopic]
  cases b.parent? Category.exchange with
  | none => simp
  | some id =>
    simp only [Option.some.injEq, exists_eq_left']
    cases hx : s.get? id with
    | none =>
      have hid := RecordSet.get?_eq_none_iff.1 hx
      have hnone : ¬∃ x ∈ s.records, x.id = id ∧ x.attribute? Attribute.type = some (.text "topic") :=
        fun ⟨x, hx, hxid, _⟩ => hid (RecordSet.mem_ids.2 ⟨x, hx, hxid⟩)
      simp [hid, hnone]
    | some x =>
      obtain ⟨hmem, rfl⟩ := RecordSet.get?_eq_some_iff.1 hx
      have hid : x.id ∈ s.ids := RecordSet.mem_ids.2 ⟨x, hmem, rfl⟩
      have htype : x.textAttribute? Attribute.type = some "topic" ↔
          x.attribute? Attribute.type = some (.text "topic") := by
        unfold Record.textAttribute?
        cases x.attribute? Attribute.type with
        | none => simp
        | some value => cases value <;> simp [Value.asText?]
      show decide (x.textAttribute? Attribute.type = some "topic") = true ↔ _
      rw [decide_eq_true_eq, htype]
      constructor
      · exact fun h => .inl ⟨x, hmem, rfl, h⟩
      · rintro (⟨y, hy, hyx, h⟩ | ⟨hfresh, _⟩)
        · exact RecordSet.eq_of_mem hy hmem hyx ▸ h
        · exact absurd hid hfresh

theorem prune?_eq_some_iff :
    prune? ((Host.ofConfig config).defaultId .topic) s b = some u ↔
      ¬Topical config s b ∧ ∃ arguments, b.arguments? = some arguments ∧ Filters arguments ∧
        u = b.withAttribute Attribute.arguments (Value.ofMapping (removeFilters arguments)) := by
  unfold prune?
  cases b.arguments? with
  | none => simp
  | some arguments =>
    simp only [← bindsTopic_iff, ← containsFilter_iff, Option.some.injEq, exists_eq_left']
    by_cases hf : containsFilter arguments <;>
      by_cases hb : bindsTopic ((Host.ofConfig config).defaultId .topic) s b <;>
        simp [hf, hb, eq_comm]

theorem entries_removeFilters (arguments : Mapping) :
    (removeFilters arguments).entries = arguments.entries.filter fun entry =>
      entry.1 ≠ "x-filter-jms-selector" ∧ entry.1 ≠ "x-qpid-no-local" := by
  show (arguments.entries.filter _).filter _ = _
  rw [List.filter_filter]
  apply List.filter_congr
  intro entry _
  by_cases hs : entry.1 = "x-filter-jms-selector" <;> by_cases hn : entry.1 = "x-qpid-no-local" <;>
    simp [selector, noLocal, hs, hn]

theorem not_filters_removeFilters (arguments : Mapping) : ¬Filters (removeFilters arguments) := by
  have hselector : (removeFilters arguments).get? "x-filter-jms-selector" = none := by
    rw [removeFilters, OrderedMap.get?_erase, OrderedMap.get?_erase]
    simp [selector]
  have hnoLocal : (removeFilters arguments).get? "x-qpid-no-local" = none := by
    rw [removeFilters, OrderedMap.get?_erase]
    simp [noLocal]
  simp [Filters, Asks, hselector, hnoLocal]

theorem unfiltered_ignored (h : Ignored config s b) : ∃ arguments, b.arguments? = some arguments ∧
    unfiltered (Host.ofConfig config) s b =
      b.withAttribute Attribute.arguments (Value.ofMapping (removeFilters arguments)) := by
  obtain ⟨hb, htopical, arguments, harguments, hfilters⟩ := h
  refine ⟨arguments, harguments, ?_⟩
  rw [unfiltered, if_pos hb, prune?_eq_some_iff.2 ⟨htopical, arguments, harguments, hfilters, rfl⟩]
  rfl

theorem unfiltered_of_not_ignored (h : ¬Ignored config s r) :
    unfiltered (Host.ofConfig config) s r = r := by
  unfold unfiltered
  split
  · rename_i hb
    cases hu : prune? ((Host.ofConfig config).defaultId .topic) s r with
    | none => rfl
    | some u =>
      obtain ⟨htopical, arguments, harguments, hfilters, _⟩ := prune?_eq_some_iff.1 hu
      exact absurd ⟨hb, htopical, arguments, harguments, hfilters⟩ h
  · rfl

theorem stripped_unfiltered (h : Ignored config s b) :
    Stripped b (unfiltered (Host.ofConfig config) s b) := by
  obtain ⟨arguments, harguments, hu⟩ := unfiltered_ignored h
  have hmem : Attribute.arguments ∈ b.attributes.keys := by
    obtain ⟨value, hvalue, _⟩ := Option.bind_eq_some_iff.1 harguments
    exact List.mem_map_of_mem (OrderedMap.get?_eq_some_iff.1 hvalue)
  rw [hu]
  refine ⟨rfl, rfl, rfl, (OrderedMap.keys_insert ..).trans (if_pos hmem), ?_, ?_⟩
  · intro other hother
    cases harguments.symm.trans hother
    rw [Record.attribute?_withAttribute, if_pos rfl, Value.ofMapping, entries_removeFilters]
  · intro key hkey
    rw [Record.attribute?_withAttribute, if_neg hkey.symm]

theorem left?_root (hroot : r.isRoot) :
    (verdict (Host.ofConfig config) s r).left? r = some (r.withVersion target) := by
  rw [verdict, if_pos hroot]
  rfl

theorem left?_other (hroot : r.isRoot = false) :
    (verdict (Host.ofConfig config) s r).left? r =
      some (unfiltered (Host.ofConfig config) s r) := by
  rw [left?_verdict, (revises_unfiltered _ s r).isRoot, hroot, if_neg Bool.false_ne_true]

theorem strips (h : Decides (verdict (Host.ofConfig config) s) RecordSet.empty s c) :
    Strips config s (s.apply c) := by
  have hget : ∀ r ∈ s.records, (s.apply c).get? r.id =
      (verdict (Host.ofConfig config) s r).left? r :=
    fun r hr => h.get?_of_mem hr List.not_mem_nil
  constructor
  · have hleft : (s.records.filterMap fun r =>
        (verdict (Host.ofConfig config) s r).left? r).map Record.id = s.ids := by
      rw [List.map_filterMap, RecordSet.ids, ← List.filterMap_eq_map]
      apply List.filterMap_congr
      intro r hr
      rw [left?_verdict, Option.map_some]
      exact congrArg some ((h.about r hr).id_left? (left?_verdict r))
    rw [RecordSet.ids, h.records_apply, hleft]
  · intro b hb hignored
    rw [hget b hb, left?_other (Record.isRoot_eq_false hignored.1 (by decide))]
    exact ⟨_, rfl, stripped_unfiltered hignored⟩
  · intro r hr hroot
    rw [hget r hr, left?_root hroot]
    rfl
  · intro r hr hroot hignored
    rw [hget r hr, left?_other hroot, unfiltered_of_not_ignored hignored]

theorem deletes_empty (h : Decides (verdict (Host.ofConfig config) s) RecordSet.empty s c) :
    c.deletes.ids = [] := by
  rw [List.eq_nil_iff_forall_not_mem]
  intro id
  rw [← RecordSet.get?_eq_none_iff, h.deletes, Option.bind_eq_none_iff]
  intro r _
  have hleft := @left?_verdict (Host.ofConfig config) s r
  cases hv : verdict (Host.ofConfig config) s r with
  | drop d =>
    rw [hv] at hleft
    cases hleft
  | _ => rfl

namespace Strips

theorem origin (h : Strips config s t) (hu : u ∈ t.records) :
    ∃ r ∈ s.records, t.get? r.id = some u := by
  have hid : u.id ∈ s.ids := h.ids ▸ RecordSet.mem_ids.2 ⟨u, hu, rfl⟩
  obtain ⟨r, hr, hru⟩ := RecordSet.mem_ids.1 hid
  exact ⟨r, hr, hru ▸ RecordSet.get?_of_mem hu⟩

theorem kept (h : Strips config s t) (hr : r ∈ s.records) : ∃ u, t.get? r.id = some u ∧
    u.parents = r.parents ∧ u.attribute? Attribute.type = r.attribute? Attribute.type := by
  by_cases hroot : r.isRoot
  · refine ⟨_, h.roots r hr hroot, rfl, ?_⟩
    rw [Record.attribute?_withAttribute, if_neg (by decide)]
  · by_cases hignored : Ignored config s r
    · obtain ⟨u, hu, hstripped⟩ := h.ignored r hr hignored
      exact ⟨u, hu, hstripped.parents, hstripped.others _ (by decide)⟩
    · exact ⟨r, h.others r hr (Bool.eq_false_iff.2 hroot) hignored, rfl, rfl⟩

theorem topical_iff (h : Strips config s t) : Topical config t b ↔ Topical config s b := by
  have htype : ∀ id, (∃ x ∈ t.records, x.id = id ∧
      x.attribute? Attribute.type = some (.text "topic")) ↔
      ∃ x ∈ s.records, x.id = id ∧ x.attribute? Attribute.type = some (.text "topic") := by
    intro id
    constructor
    · rintro ⟨u, hu, rfl, htopic⟩
      obtain ⟨r, hr, hru⟩ := h.origin hu
      obtain ⟨v, hv, _, hkept⟩ := h.kept hr
      cases hv.symm.trans hru
      exact ⟨r, hr, (RecordSet.id_of_get? hru).symm, hkept ▸ htopic⟩
    · rintro ⟨r, hr, rfl, htopic⟩
      obtain ⟨u, hu, _, hkept⟩ := h.kept hr
      exact ⟨u, RecordSet.mem_of_get? hu, RecordSet.id_of_get? hu, hkept ▸ htopic⟩
  simp only [Topical, htype, h.ids]

theorem not_ignored (h : Strips config s t) (hb : b ∈ t.records) : ¬Ignored config t b := by
  rintro ⟨hbinding, htopical, arguments, harguments, hfilters⟩
  rw [h.topical_iff] at htopical
  obtain ⟨r, hr, hrb⟩ := h.origin hb
  by_cases hroot : r.isRoot
  · cases hrb.symm.trans (h.roots r hr hroot)
    have hother : r.isCategory Category.binding = false :=
      Record.isCategory_eq_false hroot _ (by decide)
    exact Bool.false_ne_true (hother.symm.trans hbinding)
  · by_cases hignored : Ignored config s r
    · obtain ⟨u, hu, hstripped⟩ := h.ignored r hr hignored
      cases hrb.symm.trans hu
      obtain ⟨_, _, before, hbefore, _⟩ := hignored
      have hleft : b.arguments? = some (removeFilters before) := by
        rw [Record.arguments?, hstripped.arguments before hbefore, ← entries_removeFilters]
        exact Value.asMapping?_ofMapping _
      cases hleft.symm.trans harguments
      exact not_filters_removeFilters before hfilters
    · cases hrb.symm.trans (h.others r hr (Bool.eq_false_iff.2 hroot) hignored)
      exact hignored ⟨hbinding, htopical, arguments, harguments, hfilters⟩

end Strips

/-- The step never fails and deletes nothing. Bindings that had filters in vain lose them, and a
second run finds none. -/
theorem effect_strips (config : Config) (s : RecordSet) :
    ∃ c, (passes (Host.ofConfig config)).effect s = .ok c ∧ c.deletes.ids = [] ∧
      Strips config s (s.apply c) ∧ (∀ b ∈ (s.apply c).records, ¬Ignored config (s.apply c) b) ∧
      ∃ again, (passes (Host.ofConfig config)).effect (s.apply c) = .ok again ∧
        ∀ b ∈ (s.apply c).records, b.isCategory Category.binding →
          ((s.apply c).apply again).get? b.id = some b := by
  obtain ⟨c, he, hc⟩ := (@decides s (Host.ofConfig config)).effect_ok
  obtain ⟨again, hagain, hc'⟩ := (@decides (s.apply c) (Host.ofConfig config)).effect_ok
  have hnone : ∀ b ∈ (s.apply c).records, ¬Ignored config (s.apply c) b :=
    fun _ => (strips hc).not_ignored
  refine ⟨c, he, deletes_empty hc, strips hc, hnone, again, hagain, ?_⟩
  intro b hb hbinding
  exact (strips hc').others b hb (Record.isRoot_eq_false hbinding (by decide)) (hnone b hb)

end BrokerConfig.Upgrade.Selectors
