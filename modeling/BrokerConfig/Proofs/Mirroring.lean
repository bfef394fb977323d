import BrokerConfig.Proofs.Rebuilding
import BrokerConfig.Sample

namespace BrokerConfig

namespace Live

structure Mirrors (l : ListenerId) (s : RecordSet) (g : Graph) : Prop where
  distinct : g.ids.Nodup
  mirrored : ∀ ref o, g.get? ref = some o →
    o.listeners = [] ∨ o.listeners = [l] ∧ o.durable ∧ s.get? o.id = some o.toRecord

namespace Mirrors

variable {l : ListenerId} {s : RecordSet} {g : Graph} {f : Entity → Entity} {ref : Ref} {o : Entity}

theorem modify (h : Mirrors l s g) (hid : ∀ o, (f o).id = o.id)
    (hf : ∀ o, g.get? ref = some o → (f o).listeners = [] ∨
      (f o).listeners = o.listeners ∧ (f o).durable = o.durable ∧ (f o).toRecord = o.toRecord) :
    Mirrors l s (g.modify ref f) where
  distinct := by
    rw [Graph.ids_modify hid]
    exact h.distinct
  mirrored other p hp := by
    obtain ⟨o, ho, ⟨rfl, rfl⟩ | ⟨_, rfl⟩⟩ := Graph.of_modify hp
    · rcases hf o ho with hnone | ⟨hl, hd, hr⟩
      · exact .inl hnone
      · rw [hl, hd, hr, hid]
        exact h.mirrored other o ho
    · exact h.mirrored other p ho

theorem write (h : Mirrors l s g) (ho : g.get? ref = some o) (hid : ∀ o, (f o).id = o.id)
    (hl : (f o).listeners = [] ∨ (f o).listeners = [l]) (hd : (f o).durable) :
    Mirrors l (s.insert (f o).toRecord) (g.modify ref f) where
  distinct := by
    rw [Graph.ids_modify hid]
    exact h.distinct
  mirrored other p hp := by
    rw [RecordSet.get?_insert]
    obtain ⟨x, hx, ⟨rfl, rfl⟩ | ⟨hne, rfl⟩⟩ := Graph.of_modify hp
    · cases ho.symm.trans hx
      exact hl.imp id fun hl => ⟨hl, hd, if_pos rfl⟩
    · have hother : (f o).toRecord.id ≠ p.id := by
        rw [show (f o).toRecord.id = (f o).id from rfl, hid]
        exact fun e => hne (Graph.eq_of_id h.distinct ho hx e).symm
      rw [if_neg hother]
      exact h.mirrored other p hx

theorem erase (h : Mirrors l s g) (ho : g.get? ref = some o) :
    Mirrors l (s.erase o.id) (g.modify ref (·.unlisten l)) where
  distinct := by
    rw [Graph.ids_modify (fun _ => by rfl)]
    exact h.distinct
  mirrored other p hp := by
    rw [RecordSet.get?_erase]
    obtain ⟨x, hx, ⟨rfl, rfl⟩ | ⟨hne, rfl⟩⟩ := Graph.of_modify hp
    · exact .inl (x.unlisten_listeners l ((h.mirrored other x hx).imp id And.left))
    · rw [if_neg fun e => hne (Graph.eq_of_id h.distinct hx ho e)]
      exact h.mirrored other p hx

theorem unlisten (h : Mirrors l s g) (ref : Ref) : Mirrors l s (g.modify ref (·.unlisten l)) :=
  h.modify (fun _ => by rfl) fun o ho =>
    .inl (o.unlisten_listeners l ((h.mirrored ref o ho).imp id And.left))

theorem detached (h : Mirrors l s g) (ref : Ref) : Mirrors l s (g.detached l ref) := by
  have hrefs : ∀ (refs : List Ref) (g : Graph), Mirrors l s g →
      Mirrors l s (g.modifyEach refs (·.unlisten l)) := by
    intro refs
    induction refs with
    | nil => exact fun _ h => h
    | cons ref rest ih => exact fun _ h => ih _ (h.unlisten ref)
  exact hrefs _ g h

theorem add (h : Mirrors l s g) (hids : (g.add o).ids.Nodup) (ho : o.listeners = []) :
    Mirrors l s (g.add o) where
  distinct := hids
  mirrored ref p hp := by
    rw [Graph.get?_add] at hp
    split at hp
    · cases hp
      exact .inl ho
    · exact h.mirrored ref p hp

end Mirrors

structure Mirrored (l : ListenerId) (n : Node) : Prop where
  isOpen : n.store.isOpen
  followers : n.followers = [l]
  calm : n.Calm
  mirrors : Mirrors l n.store.contents n.graph

namespace Node

variable {n : Node} {l : ListenerId}

theorem tryStore_eq {α : Type} {op : StoreM α} {store : Store} (failed : StoreError → Event)
    (h : Ends op n.store (fun _ store' => store' = store) fun _ _ => False) :
    n.tryStore op failed = { n with store } := by
  unfold Ends at h
  unfold tryStore runStore
  split at h
  · rename_i hop
    rw [hop, h]
  · exact h.elim

theorem tryStore_update {create : Bool} {r : Record} (failed : StoreError → Event)
    (ho : n.store.isOpen) (hk : create ∨ n.store.contents.contains r.id) :
    n.tryStore (Store.update create [r]) failed =
      { n with store.contents := n.store.contents.insert r } := by
  have known : create ∨ ∀ t ∈ [r], t.id ∈ n.store.contents.ids :=
    hk.imp_right fun hc => by simpa using RecordSet.contains_iff.1 hc
  exact tryStore_eq failed ((Store.ends_update ho known).2 rfl)

theorem tryStore_remove {r : Record} (failed : StoreError → Event) (ho : n.store.isOpen) :
    n.tryStore (Store.remove [r]) failed =
      { n with store.contents := n.store.contents.erase r.id } :=
  tryStore_eq failed ((Store.ends_remove ho).2 rfl)

end Node

namespace Mirrored

variable {l : ListenerId} {n : Node}

theorem withGraph (h : Mirrored l n) {g : Graph} (hg : Mirrors l n.store.contents g) :
    Mirrored l { n with graph := g } :=
  ⟨h.isOpen, h.followers, h.calm, hg⟩

theorem lock (h : Mirrored l n) (parent : RecordId) : Mirrored l (n.lock l parent) :=
  ⟨h.isOpen, h.followers, h.calm, h.mirrors⟩

theorem dropLock (h : Mirrored l n) (parent : RecordId) : Mirrored l (n.dropLock l parent) :=
  ⟨h.isOpen, h.followers, h.calm, h.mirrors⟩

theorem report (h : Mirrored l n) {e : Event} (he : e.level ≠ .error) : Mirrored l (n.report e) :=
  ⟨h.isOpen, h.followers, h.calm.report he, h.mirrors⟩

theorem persistOne (h : Mirrored l n) (ref : Ref) : Mirrored l (Node.persistOne l n ref) := by
  unfold Node.persistOne
  cases ho : n.graph.get? ref with
  | none => exact h
  | some o =>
    dsimp only
    split
    · rename_i hd
      rw [Node.tryStore_update _ h.isOpen (.inl rfl), Node.listen_eq]
      have hwritten := h.mirrors.write (f := (·.listen l)) ho (fun o => o.listen_id l)
        (.inr (o.listen_listeners l ((h.mirrors.mirrored ref o ho).imp id And.left)))
        (by rwa [o.listen_durable l])
      rw [o.listen_toRecord l] at hwritten
      exact ⟨h.isOpen, h.followers, h.calm, hwritten⟩
    · exact h

theorem persistAndAttach (h : Mirrored l n) (ref : Ref) : Mirrored l (n.persistAndAttach l ref) := by
  have hrefs : ∀ (refs : List Ref) (n : Node), Mirrored l n →
      Mirrored l (refs.foldl (Node.persistOne l) n) := by
    intro refs
    induction refs with
    | nil => exact fun _ h => h
    | cons ref rest ih => exact fun _ h => ih _ (h.persistOne ref)
  exact hrefs _ n h

theorem onChildAdded (h : Mirrored l n) (object child : Ref) :
    Mirrored l (n.onChildAdded l object child) := by
  unfold Node.onChildAdded
  split
  · split
    · exact ((h.lock _).report (by rintro ⟨⟩)).persistAndAttach child
    · exact h
  · exact h

theorem onChildRemoved (h : Mirrored l n) (object child : Ref) :
    Mirrored l (n.onChildRemoved l object child) := by
  unfold Node.onChildRemoved
  split
  · rw [Node.detach_eq]
    exact (h.lock _).withGraph (h.mirrors.detached child)
  · exact h

theorem onDeleted (h : Mirrored l n) (object : Ref) : Mirrored l (n.onDeleted l object) := by
  unfold Node.onDeleted
  cases ho : n.graph.get? object with
  | none => exact h
  | some o =>
    dsimp only
    rw [Node.unlisten_eq]
    apply dropLock
    split
    · rw [Node.tryStore_remove _ h.isOpen]
      exact ⟨h.isOpen, h.followers, h.calm, h.mirrors.erase ho⟩
    · exact h.withGraph (h.mirrors.unlisten object)

theorem onHostAdded (h : Mirrored l n) (child : Ref) : Mirrored l (n.onHostAdded l child) := by
  unfold Node.onHostAdded
  split
  · split
    · exact (h.report (by rintro ⟨⟩)).persistAndAttach child
    · exact h
  · exact h

theorem onHostRemoved (h : Mirrored l n) (child : Ref) : Mirrored l (n.onHostRemoved l child) := by
  unfold Node.onHostRemoved
  split
  · rw [Node.unlisten_eq]
    exact h.withGraph (h.mirrors.unlisten child)
  · exact h

theorem notify (h : Mirrored l n) {told : ListenerId → Node → Node} (object : Ref)
    (ht : ∀ n, Mirrored l n → Mirrored l (told l n)) : Mirrored l (n.notify object told) := by
  unfold Node.notify
  cases ho : n.graph.get? object with
  | none => exact h
  | some o =>
    dsimp only
    rcases h.mirrors.mirrored object o ho with hl | ⟨hl, _⟩
    · rw [hl]
      exact h
    · rw [hl]
      exact ht n h

theorem tellFollowers (h : Mirrored l n) {told : ListenerId → Node → Node}
    (ht : ∀ n, Mirrored l n → Mirrored l (told l n)) :
    Mirrored l (n.followers.foldl (fun n l => told l n) n) := by
  rw [h.followers]
  exact ht n h

theorem setAttribute (h : Mirrored l n) (object : Ref) (key : String) (value : Json.Value) :
    Mirrored l (n.setAttribute object key value) := by
  cases ho : n.graph.get? object with
  | none =>
    rw [Node.setAttribute, Node.modifyObject, Graph.modify_of_none _ ho, Node.notify, ho]
    exact h
  | some o =>
    have hget : (n.modifyObject object (·.withAttribute key value)).graph.get? object =
        some (o.withAttribute key value) := by
      rw [Node.modifyObject, Graph.get?_modify, if_pos rfl, ho]
      rfl
    have hl : (o.withAttribute key value).listeners = o.listeners := rfl
    rw [Node.setAttribute, Node.notify, hget]
    dsimp only
    rcases h.mirrors.mirrored object o ho with hnone | ⟨hone, hd, hr⟩
    · rw [hl, hnone]
      apply h.withGraph (h.mirrors.modify (fun _ => by rfl) _)
      intro o' ho'
      cases ho.symm.trans ho'
      exact .inl hnone
    · -- the listener is told after the change, and finds an older record of the object
      have hdurable : (o.withAttribute key value).durable = true := hd
      have hknown : n.store.contents.contains o.id := by
        rw [RecordSet.contains, hr]
        rfl
      rw [hl, hone, List.foldl_cons, List.foldl_nil, Node.onAttributeSet, hget]
      dsimp only
      rw [if_pos hdurable, @Node.tryStore_update (n.modifyObject object _) false
        (o.withAttribute key value).toRecord _ h.isOpen (.inr hknown)]
      have hwritten := h.mirrors.write (f := (·.withAttribute key value)) ho (fun _ => rfl)
        (.inr hone) hdurable
      exact ⟨h.isOpen, h.followers, h.calm, hwritten⟩

theorem perform (h : Mirrored l n) {a : Action} (hids : (n.perform a).graph.ids.Nodup) :
    Mirrored l (n.perform a) := by
  have hrearranged : ∀ {f : Entity → Entity} (ref : Ref),
      (∀ o, (f o).listeners = o.listeners ∧ (f o).durable = o.durable ∧
        (f o).toRecord = o.toRecord) → Mirrored l (n.modifyObject ref f) := fun ref hf =>
    h.withGraph (h.mirrors.modify (fun o => congrArg Record.id (hf o).2.2) fun o _ => .inr (hf o))
  cases a with
  | make record durable => exact h.withGraph (h.mirrors.add hids rfl)
  | addChild parent child =>
    rw [Node.perform, Node.addChild]
    refine notify (hrearranged parent fun _ => by exact ⟨rfl, rfl, rfl⟩) parent ?_
    exact fun _ h => h.onChildAdded parent child
  | removeChild parent id =>
    rw [Node.perform, Node.removeChild]
    split
    · exact h
    · rename_i child _
      refine notify (hrearranged parent fun _ => by exact ⟨rfl, rfl, rfl⟩) parent ?_
      exact fun _ h => h.onChildRemoved parent child
  | setAttribute object key value => exact h.setAttribute object key value
  | delete object => exact h.notify object fun _ h => h.onDeleted object
  | addVirtualHost host =>
    have hplaced : Mirrored l { n with children := n.children ++ [host] } :=
      ⟨h.isOpen, h.followers, h.calm, h.mirrors⟩
    exact hplaced.tellFollowers fun _ h => h.onHostAdded host
  | removeVirtualHost =>
    rw [Node.perform, Node.removeVirtualHost]
    split
    · exact h
    · split
      · exact h
      · rename_i host _ _ child _
        have hremoved : Mirrored l
            { n with children := n.children.eraseP (n.graph.hasId host.id) } :=
          ⟨h.isOpen, h.followers, h.calm, h.mirrors⟩
        exact hremoved.tellFollowers fun _ h => h.onHostRemoved child

theorem run (h : Mirrored l n) {actions : List Action} (hids : (n.run actions).graph.ids.Nodup) :
    Mirrored l (n.run actions) := by
  induction actions generalizing n with
  | nil => exact h
  | cons a rest ih =>
    have hnow := hids.sublist (Node.ids_run (n.perform a) rest).sublist
    exact ih (h.perform hnow) hids

theorem of_restored {records : RecordSet} {g : Graph} (h : Recovery.Restored records l g n)
    (hdots : ∀ r ∈ records.records, '.' ∉ r.category.toList) : Mirrored l n := by
  obtain ⟨refs, hgraph, _⟩ := h.graph
  refine ⟨h.isOpen, h.followers, h.calm, ?_, ?_⟩
  · rw [hgraph, Graph.ids_listened]
    exact h.planted.distinct
  · intro ref o ho
    have hstem : ∀ p, g.get? ref = some p →
        p.listeners = [] ∧ n.store.contents.get? p.id = some p.toRecord := by
      intro p hp
      obtain ⟨r, hr, heq⟩ := h.planted.stem ref p hp
      -- a tag without a dot is the category of the object too
      have hshort : r.shortCategory = r.category := by
        rw [Record.shortCategory, Category.short, Category.afterLastDot_of_not_mem (hdots r hr),
          String.ofList_toList]
      have hrecord : p.toRecord = r := by
        rw [heq]
        show (⟨r.id, r.shortCategory, r.attributes, r.parents⟩ : Record) = r
        rw [hshort]
      have hid : p.id = r.id := congrArg Record.id hrecord
      refine ⟨by rw [heq]; rfl, ?_⟩
      rw [hrecord, hid, h.agrees]
      exact RecordSet.get?_of_mem hr
    rw [hgraph, Graph.get?_modifyEach fun o => o.listenIfDurable_listenIfDurable l] at ho
    split at ho
    · obtain ⟨p, hp, rfl⟩ := Option.map_eq_some_iff.1 ho
      obtain ⟨hnone, hr⟩ := hstem p hp
      by_cases hd : p.durable
      · right
        rw [Entity.listenIfDurable, if_pos hd, Entity.listen_durable, Entity.listen_id,
          Entity.listen_toRecord]
        exact ⟨p.listen_listeners l (.inl hnone), hd, hr⟩
      · rw [Entity.listenIfDurable, if_neg hd]
        exact .inl hnone
    · exact .inl (hstem o ho).1

end Mirrored

namespace Recovery

/-- Whatever is done to the objects of a recovered node, the store has the records of those with
the store listener, and no write fails. -/
theorem run_mirrors (p : Upgrade.Plan) (initial : List Record) (name : String) (store : Store)
    {isNew : Bool} {n : Node} (h : upgradeAndRecover p initial (Node.new name store) = .ok isNew n)
    (hdots : ∀ recovered, n.recovered = some recovered →
      ∀ r ∈ recovered.records, '.' ∉ r.category.toList)
    (actions : List Action) (hids : (n.run actions).graph.ids.Nodup) :
    ∃ l, n.followers = [l] ∧
      (∀ ref o, (n.run actions).graph.get? ref = some o → l ∈ o.listeners →
        o.durable ∧ o.listeners.count l = 1 ∧
        (n.run actions).store.contents.get? o.id = some o.toRecord ∧
        ∀ key value, ((n.run actions).setAttribute ref key value).store.contents.get? o.id =
          some (o.withAttribute key value).toRecord) ∧
      ∀ e ∈ (n.run actions).events, e.level ≠ .error := by
  obtain ⟨records, l, g, hrestored⟩ := (ends_of_ok h).1 (ends_upgradeAndRecover p initial name store)
  obtain ⟨_, hrecovered⟩ := hrestored.recovered
  have hm := (Mirrored.of_restored hrestored (hdots _ hrecovered)).run hids
  refine ⟨l, hrestored.followers, ?_, hm.calm⟩
  intro ref o ho hl
  rcases hm.mirrors.mirrored ref o ho with hnone | ⟨hone, hd, hr⟩
  · rw [hnone] at hl
    cases hl
  refine ⟨hd, by rw [hone, List.count_singleton_self], hr, ?_⟩
  intro key value
  have hset := hm.setAttribute ref key value
  have hget : ((n.run actions).setAttribute ref key value).graph.get? ref =
      some (o.withAttribute key value) := by
    rw [(Node.leaves_setAttribute ..).graph, Graph.get?_modify, if_pos rfl, ho]
    rfl
  rcases hset.mirrors.mirrored ref _ hget with hnone | ⟨_, _, hr'⟩
  · rw [show (o.withAttribute key value).listeners = o.listeners from rfl, hone] at hnone
    cases hnone
  · exact hr'

theorem run_mirrors_legacy :
    let p := Upgrade.Plan.standard (.ofHost Sample.hostName)
    let initial := Sample.legacy fun n => ⟨BitVec.ofNat 128 (n + 1)⟩
    let late := Sample.entity ⟨100⟩ Category.queue "late" ⟨1⟩
    let actions : List Action := [.make late true, .addChild ⟨0⟩ ⟨8⟩,
      .setAttribute ⟨8⟩ Attribute.name (.text "later"), .delete ⟨1⟩]
    ∃ n, upgradeAndRecover p initial (Node.new Sample.hostName Store.new) = .ok true n ∧
      (∀ recovered, n.recovered = some recovered →
        ∀ r ∈ recovered.records, '.' ∉ r.category.toList) ∧
      (n.run actions).graph.ids.Nodup ∧
      (∃ l o, n.followers = [l] ∧ (n.run actions).graph.get? ⟨8⟩ = some o ∧ l ∈ o.listeners ∧
        (n.run actions).store.contents.get? o.id = some o.toRecord) ∧
      ∀ e ∈ (n.run actions).events, e.level ≠ .error := by
  intro p initial late actions
  have hgiven : (match upgradeAndRecover p initial (Node.new Sample.hostName Store.new) with
      | .ok isNew n => isNew && decide ((n.run actions).graph.ids.Nodup ∧
          (∀ recovered ∈ n.recovered, ∀ r ∈ recovered.records, '.' ∉ r.category.toList) ∧
          ∃ o ∈ (n.run actions).graph.get? ⟨8⟩, o.listeners = n.followers)
      | .error .. => false) = true := by
    decide +kernel
  clear_value p initial late actions
  cases hr : upgradeAndRecover p initial (Node.new Sample.hostName Store.new) with
  | error e n =>
    rw [hr] at hgiven
    cases hgiven
  | ok isNew n =>
    rw [hr] at hgiven
    obtain ⟨hnew, hgiven⟩ := Bool.and_eq_true_iff.1 hgiven
    obtain ⟨hids, hdots, o, ho, hl⟩ := of_decide_eq_true hgiven
    obtain ⟨l, hfollowers, hmirrors, hcalm⟩ :=
      run_mirrors p initial Sample.hostName Store.new hr hdots actions hids
    have hmem : l ∈ o.listeners := by
      rw [hl, hfollowers]
      exact List.mem_singleton_self l
    cases hnew
    exact ⟨n, rfl, hdots, hids, ⟨l, o, hfollowers, ho, hmem, (hmirrors _ o ho hmem).2.2.1⟩, hcalm⟩

end Recovery

end Live

end BrokerConfig
