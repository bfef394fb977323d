import BrokerConfig.Proofs.DeadLetters
import BrokerConfig.Sample

namespace BrokerConfig.Upgrade

open Json
open MissingExchanges (Restocked bears)

structure DeadLetterExchange (config : Config) (final : RecordSet) (q x : Record) : Prop where
  mem : x ∈ final.records
  exchange : x.isCategory Category.exchange
  named : ∃ name, q.name? = some name ∧ x.name? = some (name ++ config.deadLetterSuffix)

def setting (q : Record) (key : String) : Option Value :=
  (q.attribute? key).or ((QueueSettings.modelOf (q.attribute? Attribute.arguments)).get? key)

structure Modernized (config : Config) (final : RecordSet) (q u : Record) : Prop where
  id : u.id = q.id
  category : u.isCategory Category.queue
  exclusive : u.attribute? Attribute.exclusive =
    match q.attribute? Attribute.exclusive with
    | some (.bool true) => some (.text "CONTAINER")
    | some (.bool false) => some (.text "NONE")
    | other => other
  owner : u.attribute? Attribute.owner =
    if q.attribute? Attribute.exclusive = some (.bool true) then q.attribute? Attribute.owner
    else none
  durable : u.attribute? Attribute.durable =
    (q.attribute? Attribute.durable).or (some (.bool true))
  bindings : u.attribute? Attribute.bindings = none
  deadLettered : Asks (setting q Attribute.deadLetterEnabled) →
    Blank (q.attribute? Attribute.alternateExchange) →
    (∃ x, DeadLetterExchange config final q x) →
    ∃ x, DeadLetterExchange config final q x ∧
      u.attribute? Attribute.alternateExchange = some (.text x.id.print)
  alternate : ¬(Asks (setting q Attribute.deadLetterEnabled) ∧
      Blank (q.attribute? Attribute.alternateExchange) ∧
      ∃ x, DeadLetterExchange config final q x) →
    u.attribute? Attribute.alternateExchange = q.attribute? Attribute.alternateExchange
  others : ∀ key ∉ [Attribute.exclusive, Attribute.owner, Attribute.durable, Attribute.bindings,
    Attribute.alternateExchange], u.attribute? key = setting q key

namespace Modernized

variable {config : Config} {version : String} {s t final : RecordSet} {q r u : Record}

theorem attribute?_exclusive (h : Follows (QueuePolicy.governed ∘ QueueSettings.flattened) q r)
    (hq : q.isCategory Category.queue) : r.attribute? Attribute.exclusive =
      match q.attribute? Attribute.exclusive with
      | some (.bool true) => some (.text "CONTAINER")
      | some (.bool false) => some (.text "NONE")
      | other => other := by
  have hsame := QueueSettings.flattened_of_not_model q.attribute? Attribute.exclusive
    (by decide)
  rw [h.queue hq, Function.comp_apply, QueuePolicy.governed, if_pos rfl, hsame]
  cases q.attribute? Attribute.exclusive with
  | none => rfl
  | some value =>
    cases value with
    | bool b => cases b <;> rfl
    | _ => rfl

theorem attribute?_owner (h : Follows (QueuePolicy.governed ∘ QueueSettings.flattened) q r)
    (hq : q.isCategory Category.queue) : r.attribute? Attribute.owner =
      if q.attribute? Attribute.exclusive = some (.bool true) then q.attribute? Attribute.owner
      else none := by
  have hne : Attribute.owner ≠ Attribute.exclusive := by decide
  have hsame := QueueSettings.flattened_of_not_model q.attribute?
  rw [h.queue hq, Function.comp_apply, QueuePolicy.governed, if_neg hne, if_pos rfl,
    hsame Attribute.exclusive (by decide), hsame Attribute.owner (by decide)]

theorem attribute?_durable (h : Follows (QueuePolicy.governed ∘ QueueSettings.flattened) q r)
    (hq : q.isCategory Category.queue) : r.attribute? Attribute.durable =
      (q.attribute? Attribute.durable).or (some (.bool true)) := by
  have he : Attribute.durable ≠ Attribute.exclusive := by decide
  have ho : Attribute.durable ≠ Attribute.owner := by decide
  rw [h.queue hq, Function.comp_apply, QueuePolicy.governed, if_neg he, if_neg ho, if_pos rfl,
    QueueSettings.flattened_of_not_model _ _ (by decide)]

theorem of_follows {look : Lookup}
    (h : Follows (QueuePolicy.governed ∘ QueueSettings.flattened) q r)
    (hq : q.isCategory Category.queue)
    (hlook : MissingExchanges.Alternated (Host.ofConfig config) t r look)
    (hstocked : Restocked (Host.ofConfig config) BindingLists.unlisted t final)
    (hru : Revises r u) (hu : u.attribute? = BindingLists.unlisted look) :
    Modernized config final q u := by
  have hkept : ∀ key, key ≠ Attribute.bindings → u.attribute? key = look key := by
    intro key hk
    rw [hu, BindingLists.unlisted, if_neg hk]
  have hother : ∀ key, key ≠ Attribute.bindings → key ≠ Attribute.alternateExchange →
      u.attribute? key = r.attribute? key :=
    fun key hb ha => (hkept key hb).trans (hlook.others key ha)
  have hnamed : ∀ name x,
      MissingExchanges.Named (Host.ofConfig config) t (name ++ config.deadLetterSuffix) x ↔
        ∃ y ∈ final.records, bears (name ++ config.deadLetterSuffix) y ∧ y.id = x :=
    fun _ _ => hstocked.named_iff.symm
  have hunsettled := h.unsettled_iff hq
  constructor
  case id => exact hru.id.trans h.revises.id
  case category => rw [hru.isCategory, h.revises.isCategory, hq]
  case exclusive => exact (hother _ (by decide) (by decide)).trans (attribute?_exclusive h hq)
  case owner => exact (hother _ (by decide) (by decide)).trans (attribute?_owner h hq)
  case durable => exact (hother _ (by decide) (by decide)).trans (attribute?_durable h hq)
  case bindings => rw [hu, BindingLists.unlisted, if_pos rfl]
  case deadLettered =>
    rintro hasks hblank ⟨x, hx, hexchange, name, hn, hxn⟩
    have hbears : bears (name ++ config.deadLetterSuffix) x := by
      rw [bears, hexchange, hxn, Bool.true_and, decide_eq_true_eq]
    obtain ⟨id, hid, hvalue⟩ := hlook.found (hunsettled.2 ⟨hasks, hblank⟩) name
      ((h.name? hq).trans hn) ⟨x.id, (hnamed name x.id).2 ⟨x, hx, hbears, rfl⟩⟩
    obtain ⟨y, hy, hb, rfl⟩ := (hnamed name id).1 hid
    obtain ⟨hye, hyn⟩ := Bool.and_eq_true_iff.1 hb
    refine ⟨y, ⟨hy, hye, name, hn, of_decide_eq_true hyn⟩, ?_⟩
    rw [hkept _ (by decide), hvalue]
  case alternate =>
    intro hnot
    rw [hkept _ (by decide), hlook.kept, h.attribute?_same hq _ (by decide) (by decide) (by decide)
      (by decide)]
    intro hu name hn x hx
    obtain ⟨y, hy, hb, _⟩ := (hnamed name x).1 hx
    obtain ⟨hye, hyn⟩ := Bool.and_eq_true_iff.1 hb
    obtain ⟨hasks, hblank⟩ := hunsettled.1 hu
    have hn : q.name? = some name := (h.name? hq).symm.trans hn
    exact hnot ⟨hasks, hblank, y, hy, hye, name, hn, of_decide_eq_true hyn⟩
  case others =>
    intro key hk
    simp only [List.mem_cons, List.not_mem_nil, or_false, not_or] at hk
    obtain ⟨he, ho, hd, hb, ha⟩ := hk
    exact (hother key hb ha).trans (h.attribute?_eq hq key he ho hd)

theorem of_halfway {v : RecordSet} (h : Halfway (Host.ofConfig config) version s t v)
    (hlisted : Succeeds BindingLists.unlisted v final) (hq : q.isCategory Category.queue)
    (hmem : q ∈ s.records) : ∃ u ∈ final.records, Modernized config final q u := by
  have hb : ∀ r : Record, r.isCategory Category.queue → r.isCategory Category.binding = false :=
    fun r hr => Record.isCategory_eq_false hr Category.binding (by decide)
  obtain ⟨r, hr, hqr⟩ := h.before.kept q hmem (hb q hq)
  have hrq : r.isCategory Category.queue := (hqr.revises.isCategory _).trans hq
  have hstocked := h.stocked.trans hlisted
  obtain ⟨u, hu, hru⟩ := hstocked.kept r hr (hb r hrq)
  obtain ⟨look, hlook, hlast⟩ := hru.queue hrq
  exact ⟨u, hu, .of_follows hqr hq hlook hstocked hru.revises hlast⟩

end Modernized

namespace Plan

theorem upgrade_modernizes_queues (config : Config) (input : List Record) (version : String)
    (o : Outcome) (hids : (input.map Record.id).Nodup)
    (hversion : declaredVersion (RecordSet.ofList input) = .ok version)
    (hold : version = "0.0" ∨ version = "0.1" ∨ version = "0.2")
    (hinj : Function.Injective (Host.ofConfig config).defaultId)
    (hdefaults : ∀ e, ∀ r ∈ input, r.id = (Host.ofConfig config).defaultId e →
      r.isCategory Category.exchange ∧ r.name? = some e.name)
    (ho : (ended ((standard config).upgrade input .empty)).1 = .ok o) :
    ∀ q ∈ input, q.isCategory Category.queue →
      ∃ u ∈ o.records.records, Modernized config o.records q u := by
  intro q hq hqueue
  have hends := upgrade_ends hids (List.ne_nil_of_mem hq) hversion hold hinj hdefaults
  rw [ho, Except.map] at hends
  cases hends with
  | listed halfway _ listed => exact Modernized.of_halfway halfway listed hqueue hq

theorem upgrade_modernizes_queues_legacy :
    let config := Config.ofHost Sample.hostName
    let id : Sample.Supply := fun n => ⟨BitVec.ofNat 128 (n + 1)⟩
    let input := Sample.entity (id 8) Category.exchange "payments_DLE" (id 0) :: Sample.legacy id
    (input.map Record.id).Nodup ∧ declaredVersion (RecordSet.ofList input) = .ok "0.0" ∧
      Function.Injective (Host.ofConfig config).defaultId ∧
      (∀ e, ∀ r ∈ input, r.id = (Host.ofConfig config).defaultId e →
        r.isCategory Category.exchange ∧ r.name? = some e.name) ∧
      ∃ o, (ended ((standard config).upgrade input .empty)).1 = .ok o ∧
        ∃ q ∈ input, q.name? = some "payments" ∧
          ∃ u ∈ o.records.records, ∃ x ∈ o.records.records, u.id = q.id ∧
            x.name? = some "payments_DLE" ∧
            u.attribute? Attribute.exclusive = some (.text "CONTAINER") ∧
            u.attribute? Attribute.alternateExchange = some (.text x.id.print) := by
  intro config id input
  have hids : (input.map Record.id).Nodup := by decide +kernel
  have hversion : declaredVersion (RecordSet.ofList input) = .ok "0.0" := by decide +kernel
  have hinj : Function.Injective (Host.ofConfig config).defaultId := injective_defaultId_sample
  have hdefaults : ∀ e, ∀ r ∈ input, r.id = (Host.ofConfig config).defaultId e →
      r.isCategory Category.exchange ∧ r.name? = some e.name := by
    decide +kernel
  have hqueue : ∃ q ∈ input, q.isCategory Category.queue ∧ q.name? = some "payments" ∧
      q.attribute? Attribute.exclusive = some (.bool true) ∧
      q.attribute? Attribute.alternateExchange = none ∧
      setting q Attribute.deadLetterEnabled = some (.bool true) := by
    decide +kernel
  have hfound : (ended ((standard config).upgrade input .empty)).1.toOption.any (fun o =>
      decide (∃ x ∈ o.records.records, x.isCategory Category.exchange ∧
        x.name? = some ("payments" ++ config.deadLetterSuffix))) = true := by
    decide +kernel
  have hsuffix : "payments" ++ config.deadLetterSuffix = "payments_DLE" := by decide
  obtain ⟨o, ho, hfound⟩ := (Option.any_eq_true ..).1 hfound
  clear_value config input
  have hok := eq_ok_of_toOption ho
  obtain ⟨x, hx, hexchange, hname⟩ := of_decide_eq_true hfound
  obtain ⟨q, hq, hcategory, hpayments, hexclusive, halternate, hasks⟩ := hqueue
  obtain ⟨u, hu, hmodern⟩ := upgrade_modernizes_queues config input "0.0" o hids hversion
    (.inl rfl) hinj hdefaults hok q hq hcategory
  obtain ⟨y, ⟨hy, _, name, hn, hyname⟩, hvalue⟩ := hmodern.deadLettered (.inl hasks)
    (.inl halternate) ⟨x, hx, hexchange, "payments", hpayments, hname⟩
  have hpolicy := hmodern.exclusive
  rw [hexclusive] at hpolicy
  cases hpayments.symm.trans hn
  exact ⟨hids, hversion, hinj, hdefaults, o, hok, q, hq, hpayments, u, hu, y, hy, hmodern.id,
    hsuffix ▸ hyname, hpolicy, hvalue⟩

end Plan

end BrokerConfig.Upgrade
