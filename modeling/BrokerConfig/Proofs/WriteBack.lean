import BrokerConfig.Live.Recovery
import BrokerConfig.Proofs.Footprint
import BrokerConfig.Proofs.NetEffect
import BrokerConfig.Proofs.Route
import BrokerConfig.Proofs.StoreCalls

namespace BrokerConfig

namespace Upgrade

/-- No binding holds the id of a default exchange, now or among those deleted, so no deleted id
comes back and the order of the changes is that of their commits. -/
structure Ordered (host : Host) (s t : RecordSet) (net : Changes) : Prop where
  order : InOrder s t net
  spared : ∀ id ∈ net.deletes.ids, host.isDefaultId id = false
  bindings : ∀ r ∈ t.records, r.isCategory Category.binding → host.isDefaultId r.id = false

theorem Ordered.apply {host : Host} {version : String} {s t : RecordSet} {net c : Changes}
    (h : Ordered host s t net) (ha : Accounts s t net) (hc : Footprint host version t t.records c) :
    Ordered host s (t.apply c) (net.followedBy c) where
  order := by
    have hpresent : ∀ id ∈ t.ids, id ∉ net.deletes.ids := by
      intro id hid
      rw [h.order, List.mem_append, List.mem_filter, List.mem_filter] at hid
      rcases hid with ⟨_, hd⟩ | ⟨hu, _⟩
      · simpa using hd
      · exact ha.apart id hu
    apply h.order.apply
    · intro id hu
      obtain ⟨u, hmem, rfl⟩ := RecordSet.mem_ids.1 hu
      cases hc.updated u hmem with
      | revised hr hrev => exact hpresent _ (RecordSet.mem_ids.2 ⟨_, hr, hrev.id.symm⟩)
      | created heq _ =>
        intro hd
        have hdefault := h.spared _ hd
        rw [heq, show (MissingExchanges.newRecord host _ _).id = host.defaultId _ from rfl,
          host.isDefaultId_defaultId] at hdefault
        cases hdefault
    · intro id hu
      obtain ⟨u, hmem, rfl⟩ := RecordSet.mem_ids.1 hu
      exact hc.apart u hmem
  spared id hid := by
    obtain ⟨_, hd | hd⟩ := Changes.mem_deletes_followedBy.1 hid
    · obtain ⟨d, hmem, rfl⟩ := RecordSet.mem_ids.1 hd
      obtain ⟨r, hr, hrev, hb⟩ := hc.deleted d hmem
      rw [hrev.id]
      exact h.bindings r hr hb
    · exact h.spared id hd
  bindings r hr hb := by
    rcases RecordSet.mem_apply.1 hr with hu | ⟨hr, _, _⟩
    · cases hc.updated r hu with
      | revised hmem hrev =>
        rw [hrev.id]
        exact h.bindings _ hmem (hrev.isCategory _ ▸ hb)
      | created heq _ =>
        rw [Record.isCategory_iff, heq, MissingExchanges.shortCategory_newRecord] at hb
        exact absurd hb (by decide)
    · exact h.bindings r hr hb

namespace Plan

variable {p : Plan} {sink : Sink}

theorem follow_invariant (inv : RecordSet → Changes → Prop)
    (hstep : ∀ version t net c, inv t net → Footprint p.host version t t.records c →
      inv (t.apply c) (net.followedBy c))
    {steps : List Step} {accepted : List Commit} {t : RecordSet} {outcome final : Outcome}
    (hi : inv t outcome.net) (hf : (p.follow sink steps accepted t outcome).1 = .ok final) :
    inv final.records final.net := by
  induction steps generalizing accepted t outcome with
  | nil =>
    cases hf
    exact hi
  | cons step rest ih =>
    simp only [follow] at hf
    cases he : (step.passes p.host).effect t with
    | error e =>
      rw [he] at hf
      cases hf
    | ok changes =>
      simp only [he] at hf
      cases hsink : sink accepted (commitOf step changes) with
      | some cause =>
        simp only [hsink] at hf
        cases hf
      | none =>
        simp only [hsink] at hf
        exact ih (hstep _ _ _ _ hi ((Step.footprint step).of_effect_ok he)) hf

theorem upgradeSet_invariant (inv : RecordSet → Changes → Prop)
    (hstep : ∀ version t net c, inv t net → Footprint p.host version t t.records c →
      inv (t.apply c) (net.followedBy c))
    {s : RecordSet} {j : Journal} {outcome : Outcome} (hi : inv s Changes.empty)
    (ho : (ended (p.upgradeSet sink s j)).1 = .ok outcome) : inv outcome.records outcome.net := by
  cases hs : s.isEmpty with
  | true =>
    unfold upgradeSet at ho
    rw [hs] at ho
    cases ho
    exact hi
  | false =>
    rw [ended_upgradeSet hs] at ho
    split at ho
    · cases ho
    · split at ho
      · cases ho
      · exact follow_invariant inv hstep hi ho

theorem upgrade_accounts {s : RecordSet} {j : Journal} {outcome : Outcome}
    (ho : (ended (p.upgradeSet sink s j)).1 = .ok outcome) :
    Accounts s outcome.records outcome.net :=
  upgradeSet_invariant (fun t net => Accounts s t net) (fun _ _ _ c h _ => h.apply c)
    (.refl s) ho

theorem upgrade_inOrder {s : RecordSet} {j : Journal} {outcome : Outcome}
    (hb : ∀ r ∈ s.records, r.isCategory Category.binding → p.host.isDefaultId r.id = false)
    (ho : (ended (p.upgradeSet sink s j)).1 = .ok outcome) :
    InOrder s outcome.records outcome.net :=
  (upgradeSet_invariant (fun t net => Accounts s t net ∧ Ordered p.host s t net)
    (fun _ _ _ c h hc => ⟨h.1.apply c, h.2.apply h.1 hc⟩)
    ⟨.refl s, .refl s, by simp [Changes.empty], hb⟩ ho).2.order

end Plan

end Upgrade

namespace Live

namespace NodeM

theorem ends_onStore {α : Type} {op : StoreM α} {n : Node} {done : α → Node → Prop}
    {failed : RecoveryError → Node → Prop} :
    Ends (onStore op) n done failed ↔
      Ends op n.store (fun a store => done a { n with store })
        fun e store => failed (.store e) { n with store } := by
  simp only [onStore, ends_bind, ends_get, ends_set, Node.runStore]
  unfold Ends
  cases op n.store <;> rfl

@[simp] theorem ends_report (e : Event) {n : Node} {done : Unit → Node → Prop}
    {failed : RecoveryError → Node → Prop} :
    Ends (report e) n done failed ↔ done () (n.report e) := Iff.rfl

theorem ends_reportAll (events : List Upgrade.Event) {n : Node} {done : Unit → Node → Prop}
    {failed : RecoveryError → Node → Prop} :
    Ends (events.forM fun e => report (.upgrade e)) n done failed ↔
      done () { n with events := n.events ++ events.map .upgrade } := by
  induction events generalizing n with
  | nil => simp
  | cons e rest ih =>
    have hf : ((e :: rest).forM fun e => report (.upgrade e)) =
        report (.upgrade e) >>= fun _ => rest.forM fun e => report (.upgrade e) := rfl
    rw [hf, ends_bind, ends_report, ih]
    simp [Node.report]

end NodeM

namespace Node

theorem listen_frame (n : Node) (l : ListenerId) (ref : Ref) :
    (n.listen l ref).2.store = n.store ∧ (n.listen l ref).2.recovered = n.recovered := by
  unfold listen
  cases n.graph.get? ref <;> exact ⟨rfl, rfl⟩

theorem attachOne_frame (l : ListenerId) (acc : Nat × Node) (ref : Ref) :
    (attachOne l acc ref).2.store = acc.2.store ∧
      (attachOne l acc ref).2.recovered = acc.2.recovered := by
  unfold attachOne
  split
  · split
    · exact listen_frame acc.2 l ref
    · exact ⟨rfl, rfl⟩
  · exact ⟨rfl, rfl⟩

theorem attach_frame (n : Node) (l : ListenerId) (ref : Ref) :
    (n.attach l ref).2.store = n.store ∧ (n.attach l ref).2.recovered = n.recovered := by
  unfold attach
  have h : ∀ (refs : List Ref) (acc : Nat × Node),
      (refs.foldl (attachOne l) acc).2.store = acc.2.store ∧
        (refs.foldl (attachOne l) acc).2.recovered = acc.2.recovered := by
    intro refs
    induction refs with
    | nil => exact fun acc => ⟨rfl, rfl⟩
    | cons ref rest ih =>
      intro acc
      obtain ⟨hs, hr⟩ := ih (attachOne l acc ref)
      obtain ⟨hs', hr'⟩ := attachOne_frame l acc ref
      exact ⟨hs.trans hs', hr.trans hr'⟩
  exact h _ (0, n)

end Node

namespace Recovery

variable {n : Node}

theorem ends_upgradeRecords {p : Upgrade.Plan} {records : List Record}
    {done : Upgrade.Outcome → Node → Prop} {failed : RecoveryError → Node → Prop}
    (hd : ∀ outcome (events : List Upgrade.Event),
      (Upgrade.ended (p.upgrade records .empty)).1 = .ok outcome →
        done outcome { n with events := n.events ++ events.map .upgrade })
    (hf : ∀ e (events : List Upgrade.Event),
      failed (.upgrade e) { n with events := n.events ++ events.map .upgrade }) :
    Ends (upgradeRecords p records) n done failed := by
  unfold upgradeRecords
  split
  · rename_i outcome journal hu
    simp only [ends_bind, NodeM.ends_reportAll, ends_pure]
    exact hd _ _ (by rw [hu]; rfl)
  · simp only [ends_bind, NodeM.ends_reportAll, ends_throw]
    exact hf _ _

def written (s : RecordSet) (net : Changes) : RecordSet :=
  (s.insertAll net.updates.records).eraseAll net.deletes.ids

theorem ends_remove {records : List Record} {e : Event} (ho : n.store.isOpen) :
    Ends (do
        let _ ← NodeM.onStore (Store.remove records)
        NodeM.report e) n
      (fun _ n' => n' = ({ n with
        store.contents := n.store.contents.eraseAll (records.map Record.id) } : Node).report e)
      fun _ _ => False := by
  simp only [ends_bind, NodeM.ends_onStore, NodeM.ends_report]
  rw [Store.ends_remove ho]

theorem ends_persist_eq {o : Upgrade.Outcome} (ho : n.store.isOpen) :
    Ends (persist o) n
      (fun _ n' => n' = ({ n with store.contents := written n.store.contents o.net } : Node).report
        (.persistedUpgrade o.net.updates.size o.net.deletes.size))
      fun _ _ => False := by
  unfold persist written
  cases hu : o.net.updates.isEmpty with
  | true =>
    rw [List.isEmpty_iff.1 hu]
    cases hd : o.net.deletes.isEmpty with
    | true =>
      rw [RecordSet.ids, List.isEmpty_iff.1 hd]
      rfl
    | false => exact ends_remove ho
  | false =>
    simp only [Bool.not_false, if_true, ends_bind, NodeM.ends_onStore, Store.ends_update ho (.inl rfl)]
    cases hd : o.net.deletes.isEmpty with
    | true =>
      rw [RecordSet.ids, List.isEmpty_iff.1 hd]
      rfl
    | false => exact ends_remove ho

theorem ends_persist {o : Upgrade.Outcome} (ho : n.store.isOpen) :
    Ends (persist o) n (fun _ n' => n'.store.contents = written n.store.contents o.net)
      fun _ _ => False :=
  (ends_persist_eq ho).imp fun _ _ h => h ▸ rfl

theorem ends_rebuild {records : List Record} {isNew : Bool} :
    Ends (rebuild records isNew) n
      (fun _ n' => n'.store = n.store ∧ n'.recovered = some ⟨records, isNew⟩)
      fun e _ => e = .noVirtualHost := by
  simp only [rebuild, ends_bind, ends_modify]
  split
  · exact ⟨rfl, rfl⟩
  · split
    · rfl
    · exact ⟨rfl, rfl⟩

theorem ends_listen {failed : RecoveryError → Node → Prop} :
    Ends listen n (fun _ n' => n'.store = n.store ∧ n'.recovered = n.recovered) failed := by
  simp only [listen, ends_bind, ends_get, ends_set]
  split
  · rename_i host _
    exact Node.attach_frame n.newListener.2 n.newListener.1 host
  · exact ⟨rfl, rfl⟩

theorem ends_recover {records : List Record} {isNew : Bool} :
    Ends (recover records isNew) n
      (fun _ n' => n'.store = n.store ∧ n'.recovered = some ⟨records, isNew⟩)
      fun e _ => e = .noVirtualHost := by
  simp only [recover, ends_bind, NodeM.ends_report]
  apply ends_rebuild.imp
  rintro _ n' ⟨hs, hr⟩
  apply ends_listen.imp
  rintro _ n'' ⟨hs', hr'⟩
  split
  · exact ⟨hs'.trans hs, hr'.trans hr⟩
  · exact ⟨hs'.trans hs, hr'.trans hr⟩

theorem written_noop {o : Upgrade.Outcome} (h : o.isNoop) (s : RecordSet) : written s o.net = s := by
  obtain ⟨_, hnet⟩ := Bool.and_eq_true_iff.1 h
  obtain ⟨hu, hd⟩ := Bool.and_eq_true_iff.1 hnet
  rw [written, List.isEmpty_iff.1 hu, RecordSet.ids, List.isEmpty_iff.1 hd]
  rfl

def Agrees (host : Upgrade.Host) (opened : RecordSet) (isNew : Bool) (n : Node) : Prop :=
  ∃ handed : RecordSet, n.recovered = some ⟨handed.records, isNew⟩ ∧
    (∀ id, n.store.contents.get? id = handed.get? id) ∧
    ((∀ r ∈ opened.records, r.isCategory Category.binding → host.isDefaultId r.id = false) →
      n.store.contents = handed)

theorem ends_recover_upgraded {p : Upgrade.Plan} {s : RecordSet} {o : Upgrade.Outcome}
    {isNew : Bool} (ho : (Upgrade.ended (p.upgradeSet .acceptAll s .empty)).1 = .ok o)
    (hn : n.store.contents = written s o.net) :
    Ends (recover o.records.records isNew) n (fun _ => Agrees p.host s isNew)
      fun e _ => e = .noVirtualHost := by
  have ha := Upgrade.Plan.upgrade_accounts ho
  apply ends_recover.imp
  rintro _ n' ⟨hs, hr⟩
  refine ⟨o.records, hr, ?_, ?_⟩
  · intro id
    rw [hs, hn]
    exact ha.get?_updates_first id
  · intro hb
    rw [hs, hn]
    exact (Upgrade.Plan.upgrade_inOrder hb ho).eq_updates_first ha

/-- The store and the objects agree after recovery, and an upgrade that fails leaves both as they
were after the opening. -/
theorem upgradeAndRecover_agrees (p : Upgrade.Plan) (initial : List Record) (n : Node) :
    Ends (upgradeAndRecover p initial) n (Agrees p.host (n.store.openedWith initial))
      fun e n' =>
        match e with
        | .upgrade _ => n'.store = ⟨true, true, n.store.openedWith initial⟩ ∧
            n'.recovered = n.recovered ∧ n'.graph = n.graph ∧ n'.children = n.children ∧
            n'.followers = n.followers ∧ n'.locks = n.locks ∧ n'.secureUpdates = n.secureUpdates
        | .store _ => False
        | .noVirtualHost => True := by
  simp only [upgradeAndRecover, openStore, ends_bind, NodeM.ends_onStore, Store.ends_openWith,
    ends_get, NodeM.ends_report, ends_pure]
  apply ends_upgradeRecords
  · intro o events ho
    have hu : (Upgrade.ended (p.upgradeSet .acceptAll (n.store.openedWith initial) .empty)).1 =
        .ok o := by
      rw [← RecordSet.ofList_records (n.store.openedWith initial)]
      exact ho
    cases hn : o.isNoop with
    | true =>
      simp only [Bool.not_true, Bool.false_eq_true, if_false, ends_bind, ends_pure]
      apply (ends_recover_upgraded hu (written_noop hn _).symm).mono
      · exact fun _ _ h => h
      · rintro _ _ rfl
        trivial
    | false =>
      simp only [Bool.not_false, if_true, ends_bind, ends_pure, ends_get, NodeM.ends_report]
      apply (ends_persist rfl).mono
      · intro _ n' hn'
        apply (@ends_recover_upgraded (n'.report _) _ _ _ _ hu hn').mono
        · exact fun _ _ h => h
        · rintro _ _ rfl
          trivial
      · exact fun _ _ h => h.elim
  · exact fun e events => ⟨rfl, rfl, rfl, rfl, rfl, rfl, rfl⟩

end Recovery

end Live

end BrokerConfig
