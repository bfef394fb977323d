import BrokerConfig.Proofs.QueueHistory

namespace BrokerConfig.Upgrade

open Json
open BindingLists (exchangeText exchangesOf inlineList nameOf resolve?)
open MissingExchanges (Unborne bears mem_missingIn_iff missingIn nameless unsettled)

structure Unsettleable (q : Record) : Prop where
  queue : q.isCategory Category.queue
  asks : Asks ((q.attribute? Attribute.deadLetterEnabled).or
    (q.arguments?.bind fun arguments => arguments.get? Attribute.deadLetterEnabled))
  blank : Blank (q.attribute? Attribute.alternateExchange)
  nameless : ∀ name, q.name? = some name → name = ""

structure Dangling (input : List Record) (q : Record) (entry : Value) : Prop where
  queue : q.isCategory Category.queue
  listed : entry ∈ inlineList q
  unborne : Unborne input (exchangeText entry)
  other : ∀ e : DefaultExchange, e.name ≠ exchangeText entry
  unparsed : RecordId.ofText? (exchangeText entry) = none

/-- Why records are refused. A queue comes before the virtual host, the virtual host before
bindings. -/
inductive Refused (input : List Record) : Failure → Prop
  | nameless {q : Record} (mem : q ∈ input) (unsettleable : Unsettleable q) :
    Refused input (.missingQueueName q.id)
  | rootless {e : DefaultExchange} (settleable : ∀ q ∈ input, ¬Unsettleable q)
    (rootless : ∀ r ∈ input, r.isRoot = false) (unborne : Unborne input e.name) :
    Refused input (.missingRootRecord e.name)
  | dangling {q : Record} {entry : Value} (settleable : ∀ q ∈ input, ¬Unsettleable q)
    (supplied : (∃ r ∈ input, r.isRoot) ∨ ∀ e : DefaultExchange, ¬Unborne input e.name)
    (mem : q ∈ input) (dangling : Dangling input q entry) :
    Refused input (.unresolvedExchange (nameOf q) (exchangeText entry))

theorem BindingLists.resolve?_eq_none_iff {xs : RecordSet} {reference : String} :
    resolve? xs reference = none ↔
      RecordId.ofText? reference = none ∧ ∀ x ∈ xs.records, x.name? ≠ some reference := by
  unfold resolve?
  dsimp only
  cases hparsed : RecordId.ofText? reference with
  | some id =>
    simp only [reduceCtorEq, false_and, iff_false]
    split
    · simp
    · split <;> simp
  | none =>
    rw [Option.filter_none]
    cases hfind : xs.records.find? fun e => e.name? = some reference with
    | some x =>
      have hname := List.find?_some hfind
      simpa using ⟨x, List.mem_of_find?_eq_some hfind, of_decide_eq_true hname⟩
    | none => simpa using hfind

namespace Follows

variable {q r : Record}

theorem unsettleable_iff (h : Follows (QueuePolicy.governed ∘ QueueSettings.flattened) q r)
    (hq : q.isCategory Category.queue) : Unsettleable q ↔ unsettled r ∧ nameless r := by
  have hnameless : nameless r ↔ ∀ name, q.name? = some name → name = "" := by
    unfold nameless
    rw [h.name? hq]
    cases q.name? <;> simp
  rw [h.unsettled_iff hq, QueueSettings.get?_modelOf_deadLetter, hnameless]
  constructor
  · exact fun ⟨_, hasks, hblank, hname⟩ => ⟨⟨hasks, hblank⟩, hname⟩
  · exact fun ⟨⟨hasks, hblank⟩, hname⟩ => ⟨hq, hasks, hblank, hname⟩

end Follows

theorem MissingExchanges.Restocks.same_lists {host : Host} {t : RecordSet} {q r u : Record}
    (h : Follows (QueuePolicy.governed ∘ QueueSettings.flattened) q r)
    (hu : Restocks host id t r u) (hq : q.isCategory Category.queue) :
    nameOf u = nameOf q ∧ inlineList u = inlineList q := by
  obtain ⟨look, hlook, hattribute⟩ := hu.queue ((h.revises.isCategory _).trans hq)
  have hkept : ∀ key, key ≠ Attribute.alternateExchange → u.attribute? key = r.attribute? key := by
    intro key hk
    rw [hattribute]
    exact hlook.others key hk
  have hsame := h.attribute?_same hq
  unfold nameOf inlineList
  rw [hkept _ (by decide), hkept _ (by decide),
    hsame Attribute.name (by decide) (by decide) (by decide) (by decide),
    hsame Attribute.bindings (by decide) (by decide) (by decide) (by decide)]
  exact ⟨rfl, rfl⟩

namespace Succeeds

variable {s t : RecordSet}

theorem unsettleable_iff
    (h : Succeeds (QueuePolicy.governed ∘ QueueSettings.flattened) s t) {id : RecordId} :
    (∃ q ∈ s.records, Unsettleable q ∧ q.id = id) ↔
      ∃ r ∈ t.records, unsettled r ∧ nameless r ∧ r.id = id := by
  constructor
  · rintro ⟨q, hq, hunsettleable, rfl⟩
    have hqueue := hunsettleable.queue
    obtain ⟨r, hr, hqr⟩ := h.kept q hq (Record.isCategory_eq_false hqueue _ (by decide))
    obtain ⟨hu, hn⟩ := (hqr.unsettleable_iff hqueue).1 hunsettleable
    exact ⟨r, hr, hu, hn, hqr.revises.id⟩
  · rintro ⟨r, hr, hu, hn, rfl⟩
    obtain ⟨q, hq, hqr⟩ := h.origin r hr
    have hrq : r.isCategory Category.queue :=
      (Bool.and_eq_true_iff.1 (Bool.and_eq_true_iff.1 hu).1).1
    have hqueue : q.isCategory Category.queue := hqr.revises.isCategory _ ▸ hrq
    exact ⟨q, hq, (hqr.unsettleable_iff hqueue).2 ⟨hu, hn⟩, hqr.revises.id.symm⟩

theorem settleable (h : Succeeds (QueuePolicy.governed ∘ QueueSettings.flattened) s t)
    (hnamed : ∀ r ∈ t.records, unsettled r → ¬nameless r) : ∀ q ∈ s.records, ¬Unsettleable q := by
  intro q hq hunsettleable
  obtain ⟨r, hr, hu, hn, _⟩ := h.unsettleable_iff.1 ⟨q, hq, hunsettleable, rfl⟩
  exact hnamed r hr hu hn

theorem unborne_iff {change : Lookup → Lookup} (h : Succeeds change s t) {e : DefaultExchange} :
    Unborne t.records e.name ↔ Unborne s.records e.name := by
  rw [← mem_missingIn_iff, ← mem_missingIn_iff, h.missing_iff]

end Succeeds

namespace Halfway

variable {host : Host} {version : String} {s t v : RecordSet}

theorem supplied (h : Halfway host version s t v) :
    (∃ r ∈ s.records, r.isRoot) ∨ ∀ e : DefaultExchange, ¬Unborne s.records e.name := by
  by_cases hm : missingIn t.records = []
  · right
    intro e he
    have hmem := mem_missingIn_iff.2 (h.before.unborne_iff.2 he)
    rw [hm] at hmem
    cases hmem
  · exact .inl (h.before.rooted_iff.1 (h.rooted hm))

theorem unborne_iff (h : Halfway host version s t v) {name : String} :
    Unborne v.records name ↔
      Unborne s.records name ∧ ∀ e : DefaultExchange, e.name ≠ name := by
  have hnamed : ∀ {id}, (∃ u ∈ v.records, bears name u ∧ u.id = id) ↔
      MissingExchanges.Named host t name id := h.stocked.named_iff
  rw [MissingExchanges.unborne_iff, MissingExchanges.unborne_iff]
  constructor
  · intro hv
    have hs : ∀ x ∈ s.records, bears name x = false := by
      intro x hx
      by_contra hb
      obtain ⟨r, hr, hbr, hid⟩ := h.before.named_iff.2 ⟨x, hx, Bool.not_eq_false _ ▸ hb, rfl⟩
      obtain ⟨u, hu, hbu, _⟩ := hnamed.2 (.inl ⟨r, hr, hbr, hid⟩)
      rw [hv u hu] at hbu
      cases hbu
    refine ⟨hs, ?_⟩
    rintro e rfl
    -- a default exchange that nothing is named after would have been added
    have he := mem_missingIn_iff.2 (h.before.unborne_iff.2 (MissingExchanges.unborne_iff.2 hs))
    obtain ⟨u, hu, hbu, _⟩ := hnamed.2 (.inr ⟨e, he, rfl, rfl⟩)
    rw [hv u hu] at hbu
    cases hbu
  · rintro ⟨hs, hdefault⟩ u hu
    by_contra hb
    rcases hnamed.1 ⟨u, hu, Bool.not_eq_false _ ▸ hb, rfl⟩ with ⟨r, hr, hbr, _⟩ | ⟨e, _, he, _⟩
    · obtain ⟨x, hx, hbx, _⟩ := h.before.named_iff.1 ⟨r, hr, hbr, rfl⟩
      rw [hs x hx] at hbx
      cases hbx
    · exact hdefault e he

theorem unresolved_iff (h : Halfway host version s t v) {reference : String} :
    resolve? (exchangesOf v) reference = none ↔ Unborne s.records reference ∧
      (∀ e : DefaultExchange, e.name ≠ reference) ∧ RecordId.ofText? reference = none := by
  rw [BindingLists.resolve?_eq_none_iff, and_comm, ← and_assoc, ← h.unborne_iff]
  simp only [exchangesOf, List.mem_filter, and_imp, Unborne]

theorem dangling_iff (h : Halfway host version s t v) {queue text : String} :
    (∃ q ∈ s.records, ∃ entry, Dangling s.records q entry ∧ nameOf q = queue ∧
      exchangeText entry = text) ↔
      ∃ u ∈ v.records, u.isCategory Category.queue ∧ ∃ entry ∈ inlineList u,
        resolve? (exchangesOf v) (exchangeText entry) = none ∧ nameOf u = queue ∧
        exchangeText entry = text := by
  constructor
  · rintro ⟨q, hq, entry, hdangling, rfl, rfl⟩
    have hb : ∀ r : Record, r.isCategory Category.queue → r.isCategory Category.binding = false :=
      fun r hr => Record.isCategory_eq_false hr Category.binding (by decide)
    obtain ⟨r, hr, hqr⟩ := h.before.kept q hq (hb q hdangling.queue)
    have hrq : r.isCategory Category.queue := (hqr.revises.isCategory _).trans hdangling.queue
    obtain ⟨u, hu, hru⟩ := h.stocked.kept r hr (hb r hrq)
    obtain ⟨hname, hentries⟩ := hru.same_lists hqr hdangling.queue
    exact ⟨u, hu, (hru.revises.isCategory _).trans hrq, entry, hentries ▸ hdangling.listed,
      h.unresolved_iff.2 ⟨hdangling.unborne, hdangling.other, hdangling.unparsed⟩, hname, rfl⟩
  · rintro ⟨u, hu, huq, entry, hentry, hlost, rfl, rfl⟩
    obtain ⟨hunborne, hother, hunparsed⟩ := h.unresolved_iff.1 hlost
    rcases h.stocked.origin u hu with ⟨r, hr, hru⟩ | ⟨e, _, root, hrev⟩
    · obtain ⟨q, hq, hqr⟩ := h.before.origin r hr
      have hqueue : q.isCategory Category.queue := by
        rwa [← hqr.revises.isCategory, ← hru.revises.isCategory]
      obtain ⟨hname, hentries⟩ := hru.same_lists hqr hqueue
      exact ⟨q, hq, entry, ⟨hqueue, hentries ▸ hentry, hunborne, hother, hunparsed⟩, hname.symm,
        rfl⟩
    · -- what the step adds are exchanges
      rw [hrev.isCategory, Record.isCategory_iff, MissingExchanges.shortCategory_newRecord] at huq
      exact absurd huq (by decide)

end Halfway

namespace Ending

variable {host : Host} {version : String} {s final : RecordSet}

theorem refused {e : Failure} (h : Ending host version s (.error e)) (hold : version ≠ "0.2") :
    Refused s.records e := by
  cases h with
  | unsupplied before fails =>
    cases fails with
    | nameless mem hu hn =>
      obtain ⟨q, hq, hunsettleable, hid⟩ := before.unsettleable_iff.2 ⟨_, mem, hu, hn, rfl⟩
      exact hid ▸ .nameless hq hunsettleable
    | rootless named rootless mem =>
      refine .rootless (before.settleable named) ?_ (before.unborne_iff.1 (mem_missingIn_iff.1 mem))
      intro r hr
      by_contra hroot
      obtain ⟨u, hu, hroot⟩ := before.rooted_iff.2 ⟨r, hr, Bool.not_eq_false _ ▸ hroot⟩
      rw [rootless u hu] at hroot
      cases hroot
  | unlisted halfway fails =>
    cases fails with
    | parentless mem binding lost =>
      obtain ⟨hexchange, hqueue⟩ := halfway.parented hold _ mem binding
      rcases lost with lost | lost
      · rw [lost] at hexchange
        cases hexchange
      · rw [lost] at hqueue
        cases hqueue
    | @unresolved u entry _ mem queue listed lost =>
      rw [BindingLists.inlineEntries_eq] at listed
      rw [BindingLists.reference_eq] at lost ⊢
      rw [BindingLists.queueName_eq]
      obtain ⟨q, hq, entry, hdangling, hname, htext⟩ :=
        halfway.dangling_iff.2 ⟨_, mem, queue, _, listed, lost, rfl, rfl⟩
      rw [← hname, ← htext]
      exact .dangling (halfway.before.settleable halfway.named) halfway.supplied hq hdangling

theorem not_refused (h : Ending host version s (.ok final)) (e : Failure) :
    ¬Refused s.records e := by
  cases h with
  | listed halfway resolved _ =>
    rintro (⟨mem, hunsettleable⟩ | ⟨_, hrootless, hunborne⟩ | ⟨_, _, mem, hdangling⟩)
    · exact halfway.before.settleable halfway.named _ mem hunsettleable
    · rcases halfway.supplied with ⟨r, hr, hroot⟩ | hborne
      · rw [hrootless r hr] at hroot
        cases hroot
      · exact hborne _ hunborne
    · obtain ⟨u, hu, hqueue, entry, hentry, hlost, _⟩ :=
        halfway.dangling_iff.1 ⟨_, mem, _, hdangling, rfl, rfl⟩
      rw [← BindingLists.inlineEntries_eq] at hentry
      have hresolved := resolved.references u hu hqueue entry hentry
      rw [BindingLists.reference_eq, hlost] at hresolved
      cases hresolved

end Ending

namespace Refused

variable {input : List Record} {e : Failure}

theorem of_unsettleable {q : Record} (h : Refused input e) (hq : q ∈ input)
    (hunsettleable : Unsettleable q) :
    ∃ q ∈ input, Unsettleable q ∧ e = .missingQueueName q.id := by
  cases h with
  | nameless mem unsettleable => exact ⟨_, mem, unsettleable, rfl⟩
  | rootless settleable => exact absurd hunsettleable (settleable q hq)
  | dangling settleable => exact absurd hunsettleable (settleable q hq)

theorem of_settleable (h : Refused input e) (hsettleable : ∀ q ∈ input, ¬Unsettleable q)
    (hroot : ∃ r ∈ input, r.isRoot) :
    ∃ q ∈ input, ∃ entry, Dangling input q entry ∧
      e = .unresolvedExchange (nameOf q) (exchangeText entry) := by
  cases h with
  | nameless mem unsettleable => exact absurd unsettleable (hsettleable _ mem)
  | rootless _ rootless =>
    obtain ⟨r, hr, hisRoot⟩ := hroot
    rw [rootless r hr] at hisRoot
    cases hisRoot
  | dangling _ _ mem dangling => exact ⟨_, mem, _, dangling, rfl⟩

end Refused

namespace Plan

/-- Exactly the records with a reason to be refused are refused, and for that reason. -/
theorem upgrade_fails_iff_refused (config : Config) (input : List Record) (version : String)
    (hids : (input.map Record.id).Nodup) (hne : input ≠ [])
    (hversion : declaredVersion (RecordSet.ofList input) = .ok version)
    (hold : version = "0.0" ∨ version = "0.1")
    (hinj : Function.Injective (Host.ofConfig config).defaultId)
    (hdefaults : ∀ e, ∀ r ∈ input, r.id = (Host.ofConfig config).defaultId e →
      r.isCategory Category.exchange ∧ r.name? = some e.name) :
    let result := (ended ((standard config).upgrade input .empty)).1
    ((∃ e, result = .error e) ↔ ∃ e, Refused input e) ∧
      ∀ e, result = .error e → Refused input e := by
  intro result
  have hthree : version = "0.0" ∨ version = "0.1" ∨ version = "0.2" := hold.imp_right .inl
  have hends := upgrade_ends hids hne hversion hthree hinj hdefaults
  have hrefused : ∀ e, result = .error e → Refused input e := by
    intro e he
    rw [show (ended ((standard config).upgrade input .empty)).1 = .error e from he] at hends
    refine Ending.refused hends ?_
    rcases hold with rfl | rfl <;> decide
  refine ⟨⟨fun ⟨e, he⟩ => ⟨e, hrefused e he⟩, ?_⟩, hrefused⟩
  rintro ⟨e, hrefusal⟩
  cases hresult : result with
  | error e' => exact ⟨e', rfl⟩
  | ok o =>
    rw [show (ended ((standard config).upgrade input .empty)).1 = .ok o from hresult] at hends
    exact absurd hrefusal (Ending.not_refused hends e)

theorem upgrade_fails_iff_refused_samples :
    let config := Config.ofHost Sample.hostName
    let id : Sample.Supply := fun n => ⟨BitVec.ofNat 128 (n + 1)⟩
    let root := Sample.host (id 0) (some "0.1")
    let nameless := (Record.bare (id 1) Category.queue).withAttribute Attribute.arguments
      (.object [(Attribute.deadLetterEnabled, .text "True")])
    let element : Value := .object [(Attribute.exchange, .text "nowhere")]
    let dangling := (Sample.entity (id 1) Category.queue "q" (id 0)).withAttribute
      Attribute.bindings (.array [element])
    let result := fun q => (ended ((standard config).upgrade [q, root] .empty)).1
    Function.Injective (Host.ofConfig config).defaultId ∧
      (∀ q ∈ [nameless, dangling], ([q, root].map Record.id).Nodup ∧ [q, root] ≠ [] ∧
        declaredVersion (RecordSet.ofList [q, root]) = .ok "0.1" ∧
        ∀ e, ∀ r ∈ [q, root], r.id = (Host.ofConfig config).defaultId e →
          r.isCategory Category.exchange ∧ r.name? = some e.name) ∧
      Unsettleable nameless ∧ result nameless = .error (.missingQueueName nameless.id) ∧
      Dangling [dangling, root] dangling element ∧
      result dangling = .error (.unresolvedExchange "q" "nowhere") := by
  intro config id root nameless element dangling result
  have hinj : Function.Injective (Host.ofConfig config).defaultId := injective_defaultId_sample
  have hinputs : ∀ q ∈ [nameless, dangling], ([q, root].map Record.id).Nodup ∧ [q, root] ≠ [] ∧
      declaredVersion (RecordSet.ofList [q, root]) = .ok "0.1" ∧
      ∀ e, ∀ r ∈ [q, root], r.id = (Host.ofConfig config).defaultId e →
        r.isCategory Category.exchange ∧ r.name? = some e.name := by
    decide +kernel
  have hnameless : Unsettleable nameless := by
    refine ⟨by decide +kernel, .inr ⟨"True", by decide +kernel, by decide +kernel⟩,
      .inl (by decide +kernel), ?_⟩
    have hname : nameless.name? = none := by decide +kernel
    simp [hname]
  have hnamed : dangling.name? = some "q" ∧ nameOf dangling = "q" := by decide +kernel
  have hlist : inlineList dangling = [element] ∧ exchangeText element = "nowhere" := by
    decide +kernel
  have hdangling : Dangling [dangling, root] dangling element := by
    refine ⟨by decide +kernel, by simp [hlist.1], ?_, ?_, ?_⟩ <;> rw [hlist.2]
    · unfold Unborne
      decide +kernel
    · decide
    · decide +kernel
  have hroot : root.isRoot ∧ root.isCategory Category.queue = false := by decide +kernel
  have hfirst : nameless ∈ [nameless, dangling] := List.mem_cons_self
  have hsecond : dangling ∈ [nameless, dangling] := List.mem_cons_of_mem _ List.mem_cons_self
  clear_value config nameless dangling element root
  have hresult : ∀ q ∈ [nameless, dangling], ∀ e, Refused [q, root] e →
      ∃ e', result q = .error e' ∧ Refused [q, root] e' := by
    intro q hq e he
    obtain ⟨hids, hne, hversion, hdefaults⟩ := hinputs q hq
    obtain ⟨hfails, hreason⟩ :=
      upgrade_fails_iff_refused config [q, root] "0.1" hids hne hversion (.inr rfl) hinj hdefaults
    obtain ⟨e', he'⟩ := hfails.2 ⟨e, he⟩
    exact ⟨e', he', hreason e' he'⟩
  have honly : ∀ q q', q' ∈ [q, root] → q'.isCategory Category.queue → q' = q := by
    intro q q' hmem hqueue
    rcases List.mem_cons.1 hmem with rfl | hmem
    · rfl
    · rw [List.mem_singleton.1 hmem, hroot.2] at hqueue
      cases hqueue
  have hsettleable : ∀ q ∈ [dangling, root], ¬Unsettleable q := by
    intro q hq hunsettleable
    have hname := hunsettleable.nameless "q"
    rw [honly dangling q hq hunsettleable.queue] at hname
    exact absurd (hname hnamed.1) (by decide)
  refine ⟨hinj, hinputs, hnameless, ?_, hdangling, ?_⟩
  · obtain ⟨e, he, hreason⟩ := hresult nameless hfirst _ (.nameless List.mem_cons_self hnameless)
    obtain ⟨q, hq, hunsettleable, rfl⟩ := hreason.of_unsettleable List.mem_cons_self hnameless
    rw [he, honly nameless q hq hunsettleable.queue]
  · have hrooted : ∃ r ∈ [dangling, root], r.isRoot :=
      ⟨root, List.mem_cons_of_mem _ List.mem_cons_self, hroot.1⟩
    obtain ⟨e, he, hreason⟩ := hresult dangling hsecond _
      (.dangling hsettleable (.inl hrooted) List.mem_cons_self hdangling)
    obtain ⟨q, hq, entry, hlost, rfl⟩ := hreason.of_settleable hsettleable hrooted
    have hqueue := honly dangling q hq hlost.queue
    have hentry := hlost.listed
    rw [hqueue, hlist.1, List.mem_singleton] at hentry
    rw [he, hqueue, hentry, hnamed.2, hlist.2]

end Plan

end BrokerConfig.Upgrade
