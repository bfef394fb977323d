import BrokerConfig.Live.Activity
import BrokerConfig.Proofs.Walks

namespace BrokerConfig.Live

namespace Graph

variable {g : Graph} {f : Entity → Entity}

theorem ids_modify (hf : ∀ o, (f o).id = o.id) (ref : Ref) : (g.modify ref f).ids = g.ids := by
  have hid : Entity.id ∘ f = Entity.id := funext hf
  simp only [ids, modify]
  apply List.ext_getElem?
  intro i
  rw [List.getElem?_map, List.getElem?_map]
  by_cases hi : ref.index = i
  · rw [hi, List.getElem?_modify_eq, Option.map_eq_map, Option.map_map, hid]
  · rw [List.getElem?_modify_ne _ _ hi]

theorem modify_congr {f' : Entity → Entity} {ref : Ref}
    (h : ∀ o, g.get? ref = some o → f o = f' o) : g.modify ref f = g.modify ref f' := by
  have hobjects : g.objects.modify ref.index f = g.objects.modify ref.index f' := by
    apply List.ext_getElem?
    intro i
    by_cases hi : ref.index = i
    · subst hi
      rw [List.getElem?_modify_eq, List.getElem?_modify_eq]
      cases ho : g.objects[ref.index]? with
      | none => rfl
      | some o => exact congrArg some (h o ho)
    · rw [List.getElem?_modify_ne _ _ hi, List.getElem?_modify_ne _ _ hi]
  rw [modify, hobjects, modify]

theorem modify_self {ref : Ref} (h : ∀ o, g.get? ref = some o → f o = o) : g.modify ref f = g := by
  rw [modify_congr h]
  show (⟨g.objects.modify ref.index id⟩ : Graph) = g
  rw [List.modify_id]

theorem modify_of_none {ref : Ref} (f : Entity → Entity) (h : g.get? ref = none) :
    g.modify ref f = g := by
  apply modify_self
  rw [h]
  rintro o ⟨⟩

theorem exists_modify {j ref : Ref} {o : Entity} (ho : g.get? ref = some o) :
    ∃ o', (g.modify j f).get? ref = some o' := by
  rw [get?_modify, ho]
  split
  · exact ⟨_, rfl⟩
  · exact ⟨_, rfl⟩

theorem of_modify {j ref : Ref} {o' : Entity} (h : (g.modify j f).get? ref = some o') :
    ∃ o, g.get? ref = some o ∧ (ref = j ∧ o' = f o ∨ ref ≠ j ∧ o' = o) := by
  rw [get?_modify] at h
  split at h
  · rename_i heq
    obtain ⟨o, ho, rfl⟩ := Option.map_eq_some_iff.1 h
    exact ⟨o, ho, .inl ⟨heq.symm, rfl⟩⟩
  · rename_i hne
    exact ⟨o', h, .inr ⟨fun e => hne e.symm, rfl⟩⟩

def modifyEach (g : Graph) (refs : List Ref) (f : Entity → Entity) : Graph :=
  refs.foldl (fun g ref => g.modify ref f) g

theorem ids_modifyEach (hf : ∀ o, (f o).id = o.id) (refs : List Ref) :
    (g.modifyEach refs f).ids = g.ids := by
  induction refs generalizing g with
  | nil => rfl
  | cons ref rest ih => exact (ih (g := g.modify ref f)).trans (ids_modify hf ref)

theorem get?_modifyEach (hf : ∀ o, f (f o) = f o) (refs : List Ref) (ref : Ref) :
    (g.modifyEach refs f).get? ref =
      if ref ∈ refs then (g.get? ref).map f else g.get? ref := by
  induction refs generalizing g with
  | nil => rfl
  | cons other rest ih =>
    have hff : f ∘ f = f := funext hf
    rw [modifyEach, List.foldl_cons]
    refine (ih (g := g.modify other f)).trans ?_
    rw [get?_modify]
    by_cases ho : other = ref
    · subst ho
      by_cases hr : other ∈ rest <;> simp [hr, hff]
    · have ho' : ref ≠ other := fun e => ho e.symm
      simp [ho, ho']

end Graph

def Entity.listenIfDurable (l : ListenerId) (o : Entity) : Entity :=
  if o.durable then o.listen l else o

namespace Entity

variable (o : Entity) (l : ListenerId)

theorem listen_field {α : Type} (field : Entity → α)
    (h : ∀ listeners, field { o with listeners } = field o) : field (o.listen l) = field o := by
  unfold listen
  split
  · rfl
  · exact h _

@[simp] theorem listen_id : (o.listen l).id = o.id := o.listen_field l id fun _ => rfl

@[simp] theorem listen_durable : (o.listen l).durable = o.durable :=
  o.listen_field l durable fun _ => rfl

@[simp] theorem listen_toRecord : (o.listen l).toRecord = o.toRecord :=
  o.listen_field l toRecord fun _ => rfl

theorem listen_listeners (h : o.listeners = [] ∨ o.listeners = [l]) :
    (o.listen l).listeners = [l] := by
  rcases h with h | h <;> simp [listen, hasListener, h]

theorem unlisten_listeners (h : o.listeners = [] ∨ o.listeners = [l]) :
    (o.unlisten l).listeners = [] := by
  rcases h with h | h <;> simp [unlisten, h]

theorem listen_hasListener : (o.listen l).hasListener l := by
  unfold listen
  split
  · assumption
  · simp [hasListener]

theorem listen_listen : (o.listen l).listen l = o.listen l := by
  rw [listen, if_pos (listen_hasListener o l)]

theorem unlisten_unlisten : (o.unlisten l).unlisten l = o.unlisten l := by
  simp [unlisten]

theorem listenIfDurable_listenIfDurable :
    (o.listenIfDurable l).listenIfDurable l = o.listenIfDurable l := by
  by_cases hd : o.durable
  · have h : o.listenIfDurable l = o.listen l := if_pos hd
    rw [h, listenIfDurable, listen_durable, if_pos hd, listen_listen]
  · have h : o.listenIfDurable l = o := if_neg hd
    rw [h, h]

theorem listenIfDurable_field {α : Type} (field : Entity → α)
    (h : ∀ listeners, field { o with listeners } = field o) :
    field (o.listenIfDurable l) = field o := by
  unfold listenIfDurable
  split
  · exact o.listen_field l field h
  · rfl

end Entity

namespace Graph

variable (g : Graph) (l : ListenerId)

theorem ids_listened (refs : List Ref) : (g.modifyEach refs (·.listenIfDurable l)).ids = g.ids :=
  ids_modifyEach (fun o => o.listenIfDurable_field l Entity.id fun _ => rfl) refs

def attached (ref : Ref) : Graph := g.modifyEach (g.durableWalk ref) (·.listenIfDurable l)

def detached (ref : Ref) : Graph := g.modifyEach (g.durableWalk ref) (·.unlisten l)

theorem ids_attached (ref : Ref) : (g.attached l ref).ids = g.ids :=
  g.ids_listened l _

theorem ids_detached (ref : Ref) : (g.detached l ref).ids = g.ids :=
  ids_modifyEach (fun _ => by rfl) _

theorem modify_listenIfDurable {g : Graph} {ref : Ref} {o : Entity} (ho : g.get? ref = some o) :
    g.modify ref (·.listenIfDurable l) = if o.durable then g.modify ref (·.listen l) else g := by
  split
  · rename_i hd
    apply modify_congr
    intro p hp
    cases ho.symm.trans hp
    exact if_pos hd
  · rename_i hd
    apply modify_self
    intro p hp
    cases ho.symm.trans hp
    exact if_neg hd

theorem attached_of_not_durable {ref : Ref} (h : ∀ o, g.get? ref = some o → ¬o.durable) :
    g.attached l ref = g := by
  have hself : ∀ refs : List Ref,
      (∀ x ∈ refs, ∀ o, g.get? x = some o → o.listenIfDurable l = o) →
        g.modifyEach refs (·.listenIfDurable l) = g := by
    intro refs
    induction refs with
    | nil => exact fun _ => rfl
    | cons x rest ih =>
      intro hx
      rw [modifyEach, List.foldl_cons, modify_self (hx x (by simp))]
      exact ih fun y hy => hx y (List.mem_cons_of_mem x hy)
  apply hself
  intro x hx o ho
  obtain ⟨a, ha, hl⟩ := leads_of_mem_visit hx
  cases List.mem_singleton.1 ha
  obtain ⟨start, hstart⟩ := hl.exists_first
  -- a walk gets to a durable object from a durable one only
  exact if_neg fun hd => h start hstart (hl.opens_start hstart ho hd)

end Graph

namespace Node

variable (n : Node) (l : ListenerId)

def modifyObjects (n : Node) (refs : List Ref) (f : Entity → Entity) : Node :=
  { n with graph := n.graph.modifyEach refs f }

theorem listen_eq (ref : Ref) : (n.listen l ref).2 = n.modifyObject ref (·.listen l) := by
  unfold listen
  cases h : n.graph.get? ref with
  | some o => rfl
  | none => rw [modifyObject, Graph.modify_of_none _ h]

theorem unlisten_eq (ref : Ref) : (n.unlisten l ref).2 = n.modifyObject ref (·.unlisten l) := by
  unfold unlisten
  cases h : n.graph.get? ref with
  | some o => rfl
  | none => rw [modifyObject, Graph.modify_of_none _ h]

theorem attachOne_eq (acc : Nat × Node) (ref : Ref) :
    (attachOne l acc ref).2 = acc.2.modifyObject ref (·.listenIfDurable l) := by
  unfold attachOne
  cases ho : acc.2.graph.get? ref with
  | none => rw [modifyObject, Graph.modify_of_none _ ho]
  | some o =>
    rw [modifyObject, Graph.modify_listenIfDurable l ho]
    dsimp only
    split
    · exact listen_eq acc.2 l ref
    · rfl

theorem attach_eq (ref : Ref) :
    (n.attach l ref).2 = { n with graph := n.graph.attached l ref } := by
  have h : ∀ (refs : List Ref) (acc : Nat × Node), (refs.foldl (attachOne l) acc).2 =
      acc.2.modifyObjects refs (·.listenIfDurable l) := by
    intro refs
    induction refs with
    | nil => exact fun _ => rfl
    | cons ref rest ih =>
      intro acc
      rw [List.foldl_cons, ih, attachOne_eq]
      rfl
  exact h _ (0, n)

theorem detach_eq (ref : Ref) : n.detach l ref = { n with graph := n.graph.detached l ref } := by
  have h : ∀ (refs : List Ref) (n : Node), refs.foldl (fun n ref => (n.unlisten l ref).2) n =
      n.modifyObjects refs (·.unlisten l) := by
    intro refs
    induction refs with
    | nil => exact fun _ => rfl
    | cons ref rest ih =>
      intro n
      rw [List.foldl_cons, ih, unlisten_eq]
      rfl
  exact h _ n

def Leaves (n : Node) (g : Graph) (n' : Node) : Prop :=
  ∃ store locks events, n' = { n with graph := g, store, locks, events }

namespace Leaves

variable {n n' n'' : Node} {g h : Graph}

theorem refl (n : Node) : n.Leaves n.graph n := ⟨n.store, n.locks, n.events, rfl⟩

theorem trans (first : n.Leaves g n') (second : n'.Leaves h n'') : n.Leaves h n'' := by
  obtain ⟨store, locks, events, rfl⟩ := first
  obtain ⟨store', locks', events', rfl⟩ := second
  exact ⟨store', locks', events', rfl⟩

theorem graph (k : n.Leaves g n') : n'.graph = g := by
  obtain ⟨_, _, _, rfl⟩ := k
  rfl

theorem children (k : n.Leaves g n') : n'.children = n.children := by
  obtain ⟨_, _, _, rfl⟩ := k
  rfl

theorem followers (k : n.Leaves g n') : n'.followers = n.followers := by
  obtain ⟨_, _, _, rfl⟩ := k
  rfl

end Leaves

theorem leaves_withGraph (g : Graph) : n.Leaves g { n with graph := g } :=
  ⟨n.store, n.locks, n.events, rfl⟩

theorem leaves_report (e : Event) : n.Leaves n.graph (n.report e) :=
  ⟨n.store, n.locks, n.events ++ [e], rfl⟩

theorem leaves_lock (parent : RecordId) : n.Leaves n.graph (n.lock l parent) :=
  ⟨n.store, _, n.events, rfl⟩

theorem leaves_dropLock (parent : RecordId) : n.Leaves n.graph (n.dropLock l parent) :=
  ⟨n.store, _, n.events, rfl⟩

theorem leaves_tryStore {α : Type} (op : StoreM α) (failed : StoreError → Event) :
    n.Leaves n.graph (n.tryStore op failed) := by
  unfold tryStore runStore
  cases op n.store with
  | ok a store => exact ⟨store, n.locks, n.events, rfl⟩
  | error e store => exact ⟨store, n.locks, n.events ++ [failed e], rfl⟩

theorem leaves_persistOne (ref : Ref) :
    n.Leaves (n.graph.modify ref (·.listenIfDurable l)) (persistOne l n ref) := by
  unfold persistOne
  cases ho : n.graph.get? ref with
  | none =>
    rw [Graph.modify_of_none _ ho]
    exact .refl n
  | some o =>
    rw [Graph.modify_listenIfDurable l ho]
    dsimp only
    split
    · have hwritten := leaves_tryStore n (Store.update true [o.toRecord]) (.persistFailed o)
      rw [listen_eq, ← hwritten.graph]
      exact hwritten.trans (leaves_withGraph ..)
    · exact .refl n

theorem leaves_persistAndAttach (ref : Ref) :
    n.Leaves (n.graph.attached l ref) (n.persistAndAttach l ref) := by
  have h : ∀ (refs : List Ref) (n : Node), n.Leaves
      (n.graph.modifyEach refs (·.listenIfDurable l)) (refs.foldl (persistOne l) n) := by
    intro refs
    induction refs with
    | nil => exact fun n => .refl n
    | cons ref rest ih =>
      intro n
      have hfirst := leaves_persistOne n l ref
      have hrest := ih (persistOne l n ref)
      rw [hfirst.graph] at hrest
      exact hfirst.trans hrest
  exact h _ n

theorem leaves_onChildAdded {object : Ref} {o : Entity} (ho : n.graph.get? object = some o)
    (child : Ref) : n.Leaves (n.graph.attached l child) (n.onChildAdded l object child) := by
  rw [onChildAdded, ho]
  cases hc : n.graph.get? child with
  | none =>
    rw [Graph.attached_of_not_durable _ _ (by rw [hc]; rintro _ ⟨⟩)]
    exact .refl n
  | some c =>
    dsimp only
    split
    · exact ((leaves_lock n l o.id).trans (leaves_report ..)).trans (leaves_persistAndAttach ..)
    · rename_i hd
      rw [Graph.attached_of_not_durable _ _ (by rw [hc]; rintro _ ⟨⟩; exact hd)]
      exact .refl n

theorem leaves_onChildRemoved {object : Ref} {o : Entity} (ho : n.graph.get? object = some o)
    (child : Ref) : n.Leaves (n.graph.detached l child) (n.onChildRemoved l object child) := by
  rw [onChildRemoved, ho]
  dsimp only
  rw [detach_eq]
  exact (leaves_lock n l o.id).trans (leaves_withGraph ..)

theorem leaves_onAttributeSet (object : Ref) (key : String) :
    n.Leaves n.graph (n.onAttributeSet l object key) := by
  unfold onAttributeSet
  split
  · split
    · exact leaves_tryStore ..
    · exact .refl n
  · exact .refl n

theorem leaves_setAttribute (object : Ref) (key : String) (value : Json.Value) :
    n.Leaves (n.graph.modify object (·.withAttribute key value))
      (n.setAttribute object key value) := by
  have htold : ∀ (ls : List ListenerId) (n : Node),
      n.Leaves n.graph (ls.foldl (fun n l => n.onAttributeSet l object key) n) := by
    intro ls
    induction ls with
    | nil => exact fun n => .refl n
    | cons l rest ih =>
      intro n
      have hfirst := leaves_onAttributeSet n l object key
      have hrest := ih (n.onAttributeSet l object key)
      rw [hfirst.graph] at hrest
      exact hfirst.trans hrest
  have hchanged : n.Leaves _ (n.modifyObject object (·.withAttribute key value)) :=
    leaves_withGraph ..
  unfold setAttribute notify
  dsimp only
  split
  · exact hchanged.trans (htold _ _)
  · exact hchanged

theorem leaves_onDeleted (object : Ref) :
    n.Leaves (n.graph.modify object (·.unlisten l)) (n.onDeleted l object) := by
  unfold onDeleted
  cases ho : n.graph.get? object with
  | none =>
    rw [Graph.modify_of_none _ ho]
    exact .refl n
  | some o =>
    dsimp only
    rw [unlisten_eq]
    split
    · have hwritten := leaves_tryStore n (Store.remove [o.toRecord]) (.removeFailed o)
      rw [← hwritten.graph]
      exact (hwritten.trans (leaves_withGraph ..)).trans (leaves_dropLock ..)
    · exact (leaves_withGraph ..).trans (leaves_dropLock ..)

theorem leaves_onHostAdded (child : Ref) :
    n.Leaves (if n.graph.isVirtualHost child then n.graph.attached l child else n.graph)
      (n.onHostAdded l child) := by
  unfold onHostAdded Graph.isVirtualHost
  cases n.graph.get? child with
  | none => exact .refl n
  | some c =>
    dsimp only
    split
    · exact (leaves_report ..).trans (leaves_persistAndAttach ..)
    · exact .refl n

theorem leaves_onHostRemoved (child : Ref) :
    n.Leaves (if n.graph.isVirtualHost child then n.graph.modify child (·.unlisten l) else n.graph)
      (n.onHostRemoved l child) := by
  unfold onHostRemoved
  split
  · rw [unlisten_eq]
    exact leaves_withGraph ..
  · exact .refl n

theorem Leaves.ids {n n' : Node} {g : Graph} (h : n.Leaves g n') (hg : g.ids = n.graph.ids) :
    n'.graph.ids = n.graph.ids := by
  rw [h.graph, hg]

theorem ids_foldl {told : ListenerId → Node → Node}
    (h : ∀ l n, (told l n).graph.ids = n.graph.ids) (ls : List ListenerId) (n : Node) :
    (ls.foldl (fun n l => told l n) n).graph.ids = n.graph.ids := by
  induction ls generalizing n with
  | nil => rfl
  | cons l rest ih => exact (ih (told l n)).trans (h l n)

theorem ids_notify (object : Ref) {told : ListenerId → Node → Node}
    (h : ∀ l n, (told l n).graph.ids = n.graph.ids) :
    (n.notify object told).graph.ids = n.graph.ids := by
  unfold notify
  cases n.graph.get? object with
  | none => rfl
  | some o => exact ids_foldl h o.listeners n

theorem ids_onChildAdded (object child : Ref) :
    (n.onChildAdded l object child).graph.ids = n.graph.ids := by
  cases ho : n.graph.get? object with
  | none => rw [onChildAdded, ho]
  | some o => exact (leaves_onChildAdded n l ho child).ids (Graph.ids_attached ..)

theorem ids_onChildRemoved (object child : Ref) :
    (n.onChildRemoved l object child).graph.ids = n.graph.ids := by
  cases ho : n.graph.get? object with
  | none => rw [onChildRemoved, ho]
  | some o => exact (leaves_onChildRemoved n l ho child).ids (Graph.ids_detached ..)

theorem ids_onDeleted (object : Ref) : (n.onDeleted l object).graph.ids = n.graph.ids :=
  (leaves_onDeleted n l object).ids (Graph.ids_modify (fun _ => by rfl) object)

theorem ids_onHostAdded (child : Ref) : (n.onHostAdded l child).graph.ids = n.graph.ids := by
  apply (leaves_onHostAdded n l child).ids
  split
  · exact Graph.ids_attached ..
  · rfl

theorem ids_onHostRemoved (child : Ref) : (n.onHostRemoved l child).graph.ids = n.graph.ids := by
  apply (leaves_onHostRemoved n l child).ids
  split
  · exact Graph.ids_modify (fun _ => by rfl) child
  · rfl

theorem ids_perform (a : Action) : n.graph.ids <+: (n.perform a).graph.ids := by
  have hkept : ∀ {m : Node}, m.graph.ids = n.graph.ids → n.graph.ids <+: m.graph.ids :=
    fun h => h ▸ List.prefix_refl _
  cases a with
  | make record durable =>
    refine ⟨[record.id], ?_⟩
    show n.graph.ids ++ [record.id] = (n.graph.add _).ids
    simp [Graph.ids, Graph.add, Entity.made]
  | addChild parent child =>
    exact hkept ((ids_notify _ parent fun l n => ids_onChildAdded n l parent child).trans
      (Graph.ids_modify (fun _ => by rfl) parent))
  | removeChild parent id =>
    rw [perform, removeChild]
    split
    · exact List.prefix_refl _
    · rename_i child _
      exact hkept ((ids_notify _ parent fun l n => ids_onChildRemoved n l parent child).trans
        (Graph.ids_modify (fun _ => by rfl) parent))
  | setAttribute object key value =>
    exact hkept ((leaves_setAttribute n object key value).ids
      (Graph.ids_modify (fun _ => by rfl) object))
  | delete object => exact hkept (ids_notify n object fun l n => ids_onDeleted n l object)
  | addVirtualHost host => exact hkept (ids_foldl (fun l n => ids_onHostAdded n l host) _ _)
  | removeVirtualHost =>
    rw [perform, removeVirtualHost]
    split
    · exact List.prefix_refl _
    · split
      · exact List.prefix_refl _
      · rename_i child _
        exact hkept (ids_foldl (fun l n => ids_onHostRemoved n l child) _ _)

theorem ids_run (actions : List Action) : n.graph.ids <+: (n.run actions).graph.ids := by
  induction actions generalizing n with
  | nil => exact List.prefix_refl _
  | cons a rest ih => exact (ids_perform n a).trans (ih (n.perform a))

end Node

end BrokerConfig.Live
