import BrokerConfig.Proofs.Succession

namespace BrokerConfig.Upgrade.QueueSettings

open Json

variable {arguments : Mapping} {wire name : String} {value : Value} {q : Record}

def Keyless (arguments : Mapping) : Prop :=
  "qpid.last_value_queue" ∈ arguments.keys ∧ "qpid.last_value_queue_key" ∉ arguments.keys

def promoted (wire : String) (value : Value) : Value :=
  if wire = "qpid.shared_msg_group" then
    .bool (value = .bool true ∨ value = .number (.integer 1) ∨ value = .text "1")
  else value

def namesOf (arguments : Mapping) : List String :=
  (arguments.keys.flatMap fun wire =>
    (modelNames.filter fun pair => pair.1 = wire).map Prod.snd).eraseDups

structure Models (arguments model : Mapping) : Prop where
  names : ∀ name, name ∈ model.keys ↔
    (∃ wire ∈ arguments.keys, (wire, name) ∈ modelNames) ∨ name = "lvqKey" ∧ Keyless arguments
  last : ∀ before wire value after name, arguments.entries = before ++ (wire, value) :: after →
    (wire, name) ∈ modelNames → (∀ later ∈ after, (later.1, name) ∉ modelNames) →
    model.get? name = some (promoted wire value)
  default : Keyless arguments → model.get? "lvqKey" = some (.text "qpid.LVQ_key")
  order : ¬Keyless arguments → model.keys = namesOf arguments
  defaultOrder : Keyless arguments → model.keys = namesOf arguments ++ ["lvqKey"]

structure Merges (model : Mapping) (q u : Record) : Prop where
  id : u.id = q.id
  category : u.category = q.category
  parents : u.parents = q.parents
  kept : ∀ key value, q.attribute? key = some value → u.attribute? key = some value
  added : ∀ key, q.attribute? key = none → u.attribute? key = model.get? key
  order : u.attributes.keys = model.keys ++ q.attributes.keys.filter (· ∉ model.keys)

theorem nodup_modelNames : (modelNames.map Prod.fst).Nodup := by decide

theorem modelName?_eq_some_iff : modelName? wire = some name ↔ (wire, name) ∈ modelNames := by
  simp only [modelName?, Option.map_eq_some_iff, Keyed.find?_eq_some_iff nodup_modelNames]
  constructor
  · rintro ⟨pair, ⟨hpair, rfl⟩, rfl⟩
    exact hpair
  · exact fun hpair => ⟨_, ⟨hpair, rfl⟩, rfl⟩

theorem namesOf_eq (arguments : Mapping) :
    namesOf arguments = (arguments.keys.filterMap modelName?).eraseDups := by
  rw [namesOf, List.filterMap_eq_flatMap_toList]
  congr 1
  apply List.flatMap_congr
  intro wire _
  rw [Keyed.filter_key_eq nodup_modelNames, modelName?]
  cases Keyed.find? Prod.fst wire modelNames <;> rfl

theorem mem_namesOf {arguments : Mapping} :
    name ∈ namesOf arguments ↔ ∃ wire ∈ arguments.keys, (wire, name) ∈ modelNames := by
  simp only [namesOf_eq, List.mem_eraseDups, List.mem_filterMap, modelName?_eq_some_iff]

theorem modelValue_eq (wire : String) (value : Value) : modelValue wire value = promoted wire value := by
  have hflag : isSharedFlag value =
      decide (value = .bool true ∨ value = .number (.integer 1) ∨ value = .text "1") := by
    cases value <;> simp [isSharedFlag]
  rw [modelValue, promoted, hflag]
  rfl

theorem Keyless.not_named (h : Keyless arguments) (hwire : wire ∈ arguments.keys) :
    (wire, "lvqKey") ∉ modelNames := by
  have honly : ∀ pair ∈ modelNames, pair.2 = "lvqKey" → pair.1 = "qpid.last_value_queue_key" := by
    decide
  intro hmem
  have hkey : wire = "qpid.last_value_queue_key" := honly _ hmem rfl
  exact h.2 (hkey ▸ hwire)

theorem keys_promote (model : Mapping) (argument : String × Value) :
    (promote model argument).keys = match modelName? argument.1 with
      | some name => if name ∈ model.keys then model.keys else model.keys ++ [name]
      | none => model.keys := by
  unfold promote
  cases modelName? argument.1 with
  | none => rfl
  | some name => exact OrderedMap.keys_insert ..

theorem keys_foldl_promote (entries : List (String × Value)) :
    (entries.foldl promote OrderedMap.empty).keys =
      ((entries.map Prod.fst).filterMap modelName?).eraseDups := by
  induction entries using List.reverseRecOn with
  | nil => rfl
  | append_singleton entries argument ih =>
    rw [List.foldl_append, List.foldl_cons, List.foldl_nil, keys_promote, ih, List.map_append,
      List.map_singleton, List.filterMap_append]
    cases hname : modelName? argument.1 with
    | none => rw [List.filterMap_cons_none hname, List.filterMap_nil, List.append_nil]
    | some name =>
      rw [List.filterMap_cons_some hname, List.filterMap_nil, eraseDups_concat]
      simp only [List.mem_eraseDups]

theorem get?_foldl_promote_of_ne (model : Mapping) {entries : List (String × Value)}
    (h : ∀ later ∈ entries, modelName? later.1 ≠ some name) :
    (entries.foldl promote model).get? name = model.get? name := by
  induction entries generalizing model with
  | nil => rfl
  | cons first rest ih =>
    rw [List.foldl_cons, ih _ fun later hlater => h later (List.mem_cons_of_mem _ hlater),
      get?_promote, if_neg (h first List.mem_cons_self)]

theorem toModel_of_keyless (h : Keyless arguments) : toModel arguments =
    (arguments.entries.foldl promote OrderedMap.empty).insert "lvqKey" (.text "qpid.LVQ_key") := by
  have hlast : arguments.contains lastValueQueue = true := OrderedMap.contains_iff.2 h.1
  have hkey : arguments.contains lastValueQueueKey = false :=
    Bool.eq_false_iff.2 fun hkey => h.2 (OrderedMap.contains_iff.1 hkey)
  rw [toModel, hlast, hkey]
  rfl

theorem toModel_of_not_keyless (h : ¬Keyless arguments) :
    toModel arguments = arguments.entries.foldl promote OrderedMap.empty := by
  apply if_neg
  rw [Bool.and_eq_true, Bool.not_eq_true']
  rintro ⟨hlast, hkey⟩
  refine h ⟨OrderedMap.contains_iff.1 hlast, fun hmem => ?_⟩
  exact Bool.false_ne_true (hkey.symm.trans (OrderedMap.contains_iff.2 hmem))

theorem keys_toModel_of_keyless (h : Keyless arguments) :
    (toModel arguments).keys = namesOf arguments ++ ["lvqKey"] := by
  have hnew : "lvqKey" ∉ namesOf arguments := by
    rw [mem_namesOf]
    rintro ⟨wire, hwire, hname⟩
    exact h.not_named hwire hname
  rw [namesOf_eq] at hnew ⊢
  rw [toModel_of_keyless h, OrderedMap.keys_insert, keys_foldl_promote]
  exact if_neg hnew

theorem keys_toModel_of_not_keyless (h : ¬Keyless arguments) :
    (toModel arguments).keys = namesOf arguments := by
  rw [toModel_of_not_keyless h, keys_foldl_promote, namesOf_eq]
  rfl

theorem models_toModel (arguments : Mapping) : Models arguments (toModel arguments) where
  names name := by
    by_cases h : Keyless arguments
    · rw [keys_toModel_of_keyless h, List.mem_append, mem_namesOf, List.mem_singleton,
        and_iff_left h]
    · rw [keys_toModel_of_not_keyless h, mem_namesOf]
      exact (or_iff_left fun hdefault => h hdefault.2).symm
  last before wire value after name hsplit hname hlater := by
    have hfold : (arguments.entries.foldl promote OrderedMap.empty).get? name =
        some (promoted wire value) := by
      simp only [← modelName?_eq_some_iff] at hname hlater
      rw [hsplit, List.foldl_append, List.foldl_cons, get?_foldl_promote_of_ne _ hlater,
        get?_promote, if_pos hname, modelValue_eq]
    by_cases h : Keyless arguments
    · have hwire : wire ∈ arguments.keys := by
        rw [OrderedMap.keys, hsplit]
        simp
      have hne : "lvqKey" ≠ name := by
        rintro rfl
        exact h.not_named hwire hname
      rw [toModel_of_keyless h, OrderedMap.get?_insert, if_neg hne, hfold]
    · rw [toModel_of_not_keyless h, hfold]
  default h := by rw [toModel_of_keyless h, OrderedMap.get?_insert, if_pos rfl]
  order := keys_toModel_of_not_keyless
  defaultOrder := keys_toModel_of_keyless

theorem attributes_flatten (q : Record) : (flatten q).attributes =
    (modelOf (q.attribute? Attribute.arguments)).insertAll q.attributes := rfl

theorem merges_flatten (q : Record) :
    Merges (modelOf (q.attribute? Attribute.arguments)) q (flatten q) where
  id := rfl
  category := rfl
  parents := rfl
  kept key value h := by
    rw [attribute?_flatten, flattened, h]
    rfl
  added key h := by
    rw [attribute?_flatten, flattened, h]
    rfl
  order := OrderedMap.keys_insertAll ..

theorem flatten_flatten (q : Record) : flatten (flatten q) = flatten q := by
  have harguments : (flatten q).attribute? Attribute.arguments =
      q.attribute? Attribute.arguments := by
    rw [attribute?_flatten, flattened_of_not_model _ _ (by decide)]
  have hattributes : (flatten (flatten q)).attributes = (flatten q).attributes := by
    rw [attributes_flatten, harguments, attributes_flatten, OrderedMap.insertAll_insertAll]
  exact congrArg q.withAttributes hattributes

theorem Decides.updates_flatten {s : RecordSet} {c : Changes}
    (h : Decides (queueVerdict target flatten) RecordSet.empty s c) (hq : q ∈ s.records)
    (hqueue : q.isCategory Category.queue) : c.updates.get? q.id = some (flatten q) := by
  have hroot := Record.isRoot_eq_false hqueue (by decide)
  rw [h.updates, RecordSet.get?_of_mem hq, RecordSet.get?_empty, Option.none_or, Option.bind_some,
    queueVerdict, hroot, if_neg Bool.false_ne_true, if_pos hqueue]
  rfl

/-- Queues gain the model attributes that they lack, and a second run asks for what is there. -/
theorem effect_merges (s : RecordSet) :
    (∀ arguments, Models arguments (toModel arguments)) ∧
      ∃ c, passes.effect s = .ok c ∧ ∀ q ∈ s.records, q.isCategory Category.queue →
        ∃ u, c.updates.get? q.id = some u ∧
          Merges (modelOf (q.attribute? Attribute.arguments)) q u ∧
          ∀ t : RecordSet, u ∈ t.records →
            ∃ again, passes.effect t = .ok again ∧ again.updates.get? u.id = some u := by
  refine ⟨models_toModel, ?_⟩
  obtain ⟨c, he, hc⟩ := (@decides s).effect_ok
  refine ⟨c, he, fun q hq hqueue => ⟨flatten q, Decides.updates_flatten hc hq hqueue,
    merges_flatten q, fun t ht => ?_⟩⟩
  obtain ⟨again, hagain, hc'⟩ := (@decides t).effect_ok
  have hsame : (flatten q).isCategory Category.queue := hqueue
  have hupdate := Decides.updates_flatten hc' ht hsame
  rw [flatten_flatten] at hupdate
  exact ⟨again, hagain, hupdate⟩

theorem effect_merges_sample :
    let id : Sample.Supply := fun n => ⟨BitVec.ofNat 128 (n + 1)⟩
    let arguments : List (String × Value) :=
      [("qpid.last_value_queue", .bool true), ("qpid.alert_count", .number (.integer 5)),
        ("x-qpid-priorities", .number (.integer 10)), ("unknown", .null),
        ("x-qpid-maximum-message-count", .number (.integer 7)),
        ("qpid.shared_msg_group", .text "1")]
    let queue := (Sample.entity (id 1) Category.queue "q" (id 0))
      |>.withAttribute Attribute.arguments (.object arguments)
      |>.withAttribute "priorities" (.number (.integer 3))
    let s := RecordSet.ofList [queue, Sample.host (id 0) (some "0.2")]
    let model := toModel (OrderedMap.ofList arguments)
    Models (OrderedMap.ofList arguments) model ∧
      model.entries = [("alertThresholdQueueDepthMessages", .number (.integer 7)),
        ("priorities", .number (.integer 10)), ("messageGroupSharedGroups", .bool true),
        ("lvqKey", .text "qpid.LVQ_key")] ∧
      ∃ c u, passes.effect s = .ok c ∧ c.updates.get? queue.id = some u ∧
        Merges model queue u ∧
        u.attributes.entries = [("alertThresholdQueueDepthMessages", .number (.integer 7)),
          ("priorities", .number (.integer 3)), ("messageGroupSharedGroups", .bool true),
          ("lvqKey", .text "qpid.LVQ_key"), (Attribute.name, .text "q"),
          (Attribute.arguments, .object arguments)] := by
  intro id arguments queue s model
  have hmodel : model.entries = [("alertThresholdQueueDepthMessages", .number (.integer 7)),
      ("priorities", .number (.integer 10)), ("messageGroupSharedGroups", .bool true),
      ("lvqKey", .text "qpid.LVQ_key")] := by
    decide +kernel
  have hqueue : queue ∈ s.records ∧ queue.isCategory Category.queue ∧
      queue.attribute? Attribute.arguments = some (.object arguments) := by
    decide +kernel
  have hupdate : (passes.effect s).toOption.any (fun c => decide (∀ u ∈ c.updates.get? queue.id,
      u.attributes.entries = [("alertThresholdQueueDepthMessages", .number (.integer 7)),
        ("priorities", .number (.integer 3)), ("messageGroupSharedGroups", .bool true),
        ("lvqKey", .text "qpid.LVQ_key"), (Attribute.name, .text "q"),
        (Attribute.arguments, .object arguments)])) = true := by
    decide +kernel
  obtain ⟨hmodels, c, he, hmerges⟩ := effect_merges s
  obtain ⟨u, hu, hmerged, -⟩ := hmerges queue hqueue.1 hqueue.2.1
  rw [he] at hupdate
  rw [hqueue.2.2] at hmerged
  exact ⟨hmodels _, hmodel, c, u, he, hu, hmerged, of_decide_eq_true hupdate u hu⟩

end BrokerConfig.Upgrade.QueueSettings
