import BrokerConfig.Proofs.QueueHistory

namespace BrokerConfig.Upgrade.MissingExchanges

open Json

variable {config : Config} {host : Host} {s t : RecordSet} {c : Changes}

structure Default (config : Config) (e : DefaultExchange) (root u : Record) : Prop where
  id : u.id = exchangeId config.virtualHost e.name
  category : u.category = Category.exchange
  attributes : u.attributes.entries = [(Attribute.name, .text e.name),
    (Attribute.type, .text e.routing), (Attribute.lifetimePolicy, .text "PERMANENT")]
  parents : u.parents = SortedMap.empty.insert Category.virtualHost root.id

theorem default_newRecord (config : Config) (e : DefaultExchange) (root : Record) :
    Default config e root (newRecord (Host.ofConfig config) e root.id) where
  id := Host.defaultId_ofConfig config e
  category := rfl
  attributes := rfl
  parents := rfl

def Settled (config : Config) (t : RecordSet) (q : Record) : Prop :=
  Asks (q.attribute? Attribute.deadLetterEnabled) ∧
    Blank (q.attribute? Attribute.alternateExchange) ∧ ∃ x, DeadLetterExchange config t q x

structure Backfilled (config : Config) (t : RecordSet) (q u : Record) : Prop where
  changed : u ≠ q ↔ Settled config t q
  alternate : Settled config t q → ∃ x, DeadLetterExchange config t q x ∧
    u = q.withAttribute Attribute.alternateExchange (.text x.id.print)

structure Stocks (config : Config) (s t : RecordSet) : Prop where
  ids : ∃ missing : List DefaultExchange, missing.Nodup ∧
    (∀ e, e ∈ missing ↔ Unborne s.records e.name) ∧
    t.ids.Perm (s.ids ++ missing.map fun e => exchangeId config.virtualHost e.name)
  created : ∀ e : DefaultExchange, Unborne s.records e.name →
    ∃ root ∈ s.records, root.isRoot ∧ ∃ u ∈ t.records, Default config e root u
  roots : ∀ r ∈ s.records, r.isRoot →
    t.get? r.id = some (r.withAttribute Attribute.modelVersion (.text "2.0"))
  queues : ∀ q ∈ s.records, q.isCategory Category.queue →
    ∃ u, t.get? q.id = some u ∧ Backfilled config t q u
  others : ∀ r ∈ s.records, r.isRoot = false → r.isCategory Category.queue = false →
    t.get? r.id = some r

theorem withAlternate_ne {q : Record} {x : RecordId}
    (h : Blank (q.attribute? Attribute.alternateExchange)) : withAlternate q x ≠ q := by
  intro he
  have hset : (withAlternate q x).attribute? Attribute.alternateExchange = some (.text x.print) :=
    (Record.attribute?_withAttribute ..).trans (if_pos rfl)
  rw [he] at hset
  rcases h with h | h
  · rw [h] at hset
    cases hset
  · rw [h] at hset
    cases hset

theorem Answers.backfilled {q : Record} {v : Verdict}
    (hnamed : ∀ name id, (∃ x ∈ t.records, bears name x ∧ x.id = id) ↔
      Named (Host.ofConfig config) s name id)
    (h : Answers (Host.ofConfig config) s q v) (hq : q.isCategory Category.queue) :
    ∃ u, v.left? q = some u ∧ Backfilled config t q u := by
  have hroot := Record.isRoot_eq_false hq (by decide)
  have hfound : ∀ name, q.name? = some name → ∀ x, DeadLetterExchange config t q x →
      Named (Host.ofConfig config) s ((Host.ofConfig config).deadLetterName name) x.id := by
    intro name hn x hx
    obtain ⟨other, ho, hname⟩ := hx.named
    cases hn.symm.trans ho
    have hbears : bears ((Host.ofConfig config).deadLetterName name) x := by
      rw [bears, hx.exchange, Bool.true_and, decide_eq_true_eq]
      exact hname
    exact (hnamed _ _).1 ⟨x, hx.mem, hbears, rfl⟩
  unfold Answers at h
  rw [hroot, if_neg Bool.false_ne_true] at h
  split at h
  · rename_i hu
    obtain ⟨hasks, hblank⟩ := (unsettled_iff hq).1 hu
    obtain ⟨name, hn, _, ⟨id, hid, rfl⟩ | ⟨hnone, rfl⟩⟩ := h
    · obtain ⟨x, hx, hb, rfl⟩ := (hnamed _ _).2 hid
      rw [bears, Bool.and_eq_true, decide_eq_true_eq] at hb
      have hdead : DeadLetterExchange config t q x := ⟨hx, hb.1, name, hn, hb.2⟩
      exact ⟨_, rfl, ⟨fun _ => ⟨hasks, hblank, x, hdead⟩, fun _ => withAlternate_ne hblank⟩,
        fun _ => ⟨x, hdead, rfl⟩⟩
    · have hunsettled : ¬Settled config t q := by
        rintro ⟨_, _, x, hx⟩
        exact hnone x.id (hfound name hn x hx)
      exact ⟨q, rfl, ⟨fun hne => absurd rfl hne, fun hs => absurd hs hunsettled⟩,
        fun hs => absurd hs hunsettled⟩
  · rename_i hu
    subst h
    have hunsettled : ¬Settled config t q := fun hs => hu ((unsettled_iff hq).2 ⟨hs.1, hs.2.1⟩)
    exact ⟨q, rfl, ⟨fun hne => absurd rfl hne, fun hs => absurd hs hunsettled⟩,
      fun hs => absurd hs hunsettled⟩

theorem ids_createdIn (hinj : Function.Injective host.defaultId) (root : RecordId) :
    (createdIn host s root).ids = (missingIn s.records).map host.defaultId := by
  have hids : ((missingIn s.records).map fun e => newRecord host e root).map Record.id =
      (missingIn s.records).map host.defaultId := by
    rw [List.map_map]
    rfl
  have hn : (((missingIn s.records).map fun e => newRecord host e root).map Record.id).Nodup := by
    rw [hids]
    exact ((nodup_missing s.records).of_map _).map hinj
  rw [createdIn, RecordSet.ofList, RecordSet.ids_insertAll _ hn, hids]
  simp

theorem stocks (hinj : Function.Injective (Host.ofConfig config).defaultId)
    (hs : Reserved (Host.ofConfig config) s) (h : Supplies (Host.ofConfig config) s c) :
    Stocks config s (s.apply c) := by
  have hnamed : ∀ name id, (∃ x ∈ (s.apply c).records, bears name x ∧ x.id = id) ↔
      Named (Host.ofConfig config) s name id :=
    fun _ _ => (restocked hinj hs h).named_iff
  obtain ⟨verdict, root, hdecides, hanswers, hroot⟩ := h
  -- what was there keeps its place, since no new record takes its id
  have hget : ∀ r ∈ s.records, (s.apply c).get? r.id = (verdict r).left? r := fun r hr =>
    hdecides.get?_of_mem hr fun hid => fresh_createdIn hs hid (RecordSet.mem_ids.2 ⟨r, hr, rfl⟩)
  constructor
  · have hleft : (s.records.filterMap fun r => (verdict r).left? r).map Record.id = s.ids := by
      rw [List.map_filterMap, RecordSet.ids, ← List.filterMap_eq_map]
      apply List.filterMap_congr
      intro r hr
      obtain ⟨u, hu, hrestocks⟩ := (hanswers r hr).left?
      rw [hu, Option.map_some, hrestocks.revises.id]
      rfl
    have hperm := (hdecides.records_apply_perm fun _ => fresh_createdIn hs).map Record.id
    rw [List.map_append, hleft, ← RecordSet.ids, ← RecordSet.ids, ids_createdIn hinj,
      funext (Host.defaultId_ofConfig config)] at hperm
    exact ⟨_, (nodup_missing s.records).of_map _, fun _ => mem_missingIn_iff, hperm⟩
  · intro e hunborne
    have he := mem_missingIn_iff.2 hunborne
    obtain ⟨r, hr, hisRoot, rfl⟩ := hroot (List.ne_nil_of_mem he)
    have hid : (Host.ofConfig config).defaultId e ∈
        (createdIn (Host.ofConfig config) s r.id).ids := by
      rw [ids_createdIn hinj]
      exact List.mem_map_of_mem he
    obtain ⟨u, hu, hid⟩ := RecordSet.mem_ids.1 hid
    obtain ⟨f, _, rfl⟩ := mem_createdIn hu
    cases hinj hid
    exact ⟨r, hr, hisRoot, _, hdecides.mem_apply.2 (.inl hu), default_newRecord config e r⟩
  · intro r hr hisRoot
    have ha := hanswers r hr
    rw [Answers, if_pos hisRoot] at ha
    rw [hget r hr, ha]
    rfl
  · intro q hq hqueue
    rw [hget q hq]
    exact (hanswers q hq).backfilled hnamed hqueue
  · intro r hr hisRoot hqueue
    have ha := hanswers r hr
    rw [Answers, hisRoot, unsettled, hqueue, if_neg Bool.false_ne_true, Bool.false_and,
      Bool.false_and, if_neg Bool.false_ne_true] at ha
    rw [hget r hr, ha]
    rfl

/-- The step adds what is missing once, and settles a queue whatever the order of the records. -/
theorem effect_stocks (config : Config) (s : RecordSet) (c : Changes)
    (hinj : Function.Injective (Host.ofConfig config).defaultId)
    (hdefaults : ∀ e, ∀ r ∈ s.records, r.id = (Host.ofConfig config).defaultId e →
      r.isCategory Category.exchange ∧ r.name? = some e.name)
    (he : (passes (Host.ofConfig config)).effect s = .ok c) : Stocks config s (s.apply c) := by
  have hs : Reserved (Host.ofConfig config) s := by
    intro e r hr hid
    rw [bears, Bool.and_eq_true, decide_eq_true_eq]
    exact hdefaults e r hr hid
  have hsupplies := supplies (s := s) fun r hr => hs.isCategory hr
  exact stocks hinj hs (hsupplies.of_effect_ok he).1

theorem effect_stocks_deferred :
    let config := Config.ofHost Sample.hostName
    let id : Sample.Supply := fun n => ⟨BitVec.ofNat 128 (n + 1)⟩
    let queue := (Sample.entity (id 1) Category.queue "orders" (id 0)).withAttribute
      Attribute.deadLetterEnabled (.text "TRUE")
    let s := RecordSet.ofList [queue, Sample.entity (id 2) Category.exchange "orders_DLE" (id 0),
      Sample.host (id 0) (some "0.4")]
    Function.Injective (Host.ofConfig config).defaultId ∧
      (∀ e, ∀ r ∈ s.records, r.id = (Host.ofConfig config).defaultId e →
        r.isCategory Category.exchange ∧ r.name? = some e.name) ∧
      ∃ c, (passes (Host.ofConfig config)).effect s = .ok c ∧ Stocks config s (s.apply c) ∧
        Settled config (s.apply c) queue ∧
        ((s.apply c).get? queue.id).bind (·.attribute? Attribute.alternateExchange) =
          some (.text (id 2).print) ∧
        (s.apply c).records.map (fun r => (r.id.print, r.name?)) =
          [((id 1).print, some "orders"), ((id 2).print, some "orders_DLE"),
            ((id 0).print, some "test"),
            ("f2a2c68f-e00f-3121-a189-e466da746710", some "amq.direct"),
            ("7cc16341-8599-366c-b447-bc9c826d8d5a", some "amq.topic"),
            ("1e001bd8-6f8e-3e29-8801-2b07d3c1a78c", some "amq.fanout"),
            ("fd61be23-f1ac-3313-ad95-448adea518de", some "amq.match")] := by
  intro config id queue s
  have hinj : Function.Injective (Host.ofConfig config).defaultId := injective_defaultId_sample
  have hdefaults : ∀ e, ∀ r ∈ s.records, r.id = (Host.ofConfig config).defaultId e →
      r.isCategory Category.exchange ∧ r.name? = some e.name := by
    decide +kernel
  have hmem : queue ∈ s.records ∧ queue.isCategory Category.queue ∧
      queue.attribute? Attribute.alternateExchange = none := by
    decide +kernel
  have hpinned : ((passes (Host.ofConfig config)).effect s).toOption.any (fun c => decide
      (((s.apply c).get? queue.id).bind (·.attribute? Attribute.alternateExchange) =
        some (.text (id 2).print) ∧
      (s.apply c).records.map (fun r => (r.id.print, r.name?)) =
        [((id 1).print, some "orders"), ((id 2).print, some "orders_DLE"),
          ((id 0).print, some "test"),
          ("f2a2c68f-e00f-3121-a189-e466da746710", some "amq.direct"),
          ("7cc16341-8599-366c-b447-bc9c826d8d5a", some "amq.topic"),
          ("1e001bd8-6f8e-3e29-8801-2b07d3c1a78c", some "amq.fanout"),
          ("fd61be23-f1ac-3313-ad95-448adea518de", some "amq.match")])) = true := by
    decide +kernel
  obtain ⟨c, hc, hpinned⟩ := (Option.any_eq_true ..).1 hpinned
  obtain ⟨halternate, hrecords⟩ := of_decide_eq_true hpinned
  clear_value config queue s
  have he := eq_ok_of_toOption hc
  have hstocks := effect_stocks config s c hinj hdefaults he
  obtain ⟨u, hu, hbackfilled⟩ := hstocks.queues queue hmem.1 hmem.2.1
  have hchanged : u ≠ queue := by
    rintro rfl
    rw [hu, Option.bind_some, hmem.2.2] at halternate
    cases halternate
  exact ⟨hinj, hdefaults, c, he, hstocks, hbackfilled.changed.1 hchanged, halternate, hrecords⟩

end BrokerConfig.Upgrade.MissingExchanges
