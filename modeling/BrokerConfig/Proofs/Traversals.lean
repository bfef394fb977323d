import Mathlib.Data.Set.Card
import BrokerConfig.Proofs.ActingWalks
import BrokerConfig.Proofs.Listening

namespace BrokerConfig.Live

def Graph.Closed (g : Graph) : Prop :=
  ∀ o ∈ g.objects, ∀ child ∈ o.children, (g.get? child).isSome

namespace Walk

variable {σ : Type} {graph : σ → Graph} {descend : Entity → Bool} {act : Ref → σ → σ} {s : σ}

def KeepsLinks (graph : σ → Graph) (act : Ref → σ → σ) : Prop :=
  ∀ ref s x o, (graph s).get? x = some o →
    ∃ p, (graph (act ref s)).get? x = some p ∧ p.id = o.id ∧ p.children = o.children

def KeepsAnswers (graph : σ → Graph) (descend : Entity → Bool) (act : Ref → σ → σ) : Prop :=
  ∀ ref s x o p, (graph s).get? x = some o → (graph (act ref s)).get? x = some p →
    descend p = descend o

theorem steady (hclosed : (graph s).Closed) (hlinks : KeepsLinks graph act)
    {look : Entity → Bool} (hlook : KeepsAnswers graph look act) :
    Steady graph look act (fun x => ∃ o, (graph s).get? x = some o) s where
  child _ o child _ ho hchild :=
    Option.isSome_iff_exists.1 (hclosed o (Graph.mem_of_get? ho) child hchild)
  act ref s' hagrees x := by
    rintro ⟨o, ho⟩
    obtain ⟨p, hp, hshape⟩ := hagrees.symm.exists_get? ⟨_, ho⟩ ho
    obtain ⟨q, hq, hid, hchildren⟩ := hlinks ref s' x p hp
    have hkept : q.shape look = p.shape look :=
      Entity.shape_eq_iff.2 ⟨hid, hchildren, hlook ref s' x p q hp hq⟩
    rw [hq, ho, Option.map_some, Option.map_some, hkept, hshape]

end Walk

namespace Graph

variable {g : Graph} {l : ListenerId} {start x : Ref}

def lacks (g : Graph) (l : ListenerId) (ref : Ref) : Bool :=
  (g.get? ref).any fun o => o.durable && !o.hasListener l

theorem lacks_iff : g.lacks l x ↔ ∃ o, g.get? x = some o ∧ o.durable ∧ ¬o.hasListener l := by
  rw [lacks, Option.any_eq_true]
  simp

theorem lacks_modify_of_ne {f : Entity → Entity} {ref : Ref} (h : ref ≠ x) :
    (g.modify ref f).lacks l x = g.lacks l x := by
  rw [lacks, get?_modify, if_neg h, lacks]

theorem Agrees.leads {g' : Graph} {descend : Entity → Bool}
    (h : g.Agrees descend (fun _ => True) g') {a b : Ref} (hl : g.Leads descend a b) :
    g'.Leads descend a b := by
  apply hl.mono
  intro ref o ho
  obtain ⟨p, hp, hshape⟩ := h.symm.exists_get? trivial ho
  obtain ⟨_, hchildren, hdescend⟩ := Entity.shape_eq_iff.1 hshape
  exact ⟨p, hp, fun hopens => hdescend ▸ hopens, hchildren ▸ List.Subset.refl _⟩

theorem shape_modify {f : Entity → Entity}
    (hf : ∀ o, (f o).shape Entity.durable = o.shape Entity.durable) (ref x : Ref) :
    ((g.modify ref f).get? x).map (·.shape Entity.durable) =
      (g.get? x).map (·.shape Entity.durable) := by
  rw [get?_modify]
  split
  · cases g.get? x with
    | none => rfl
    | some o => exact congrArg some (hf o)
  · rfl

theorem shape_listenIfDurable (o : Entity) :
    (o.listenIfDurable l).shape Entity.durable = o.shape Entity.durable :=
  o.listenIfDurable_field l (·.shape Entity.durable) fun _ => rfl

theorem shape_unlisten (o : Entity) :
    (o.unlisten l).shape Entity.durable = o.shape Entity.durable := rfl

end Graph

namespace Node

variable {n : Node} {l : ListenerId} {start : Ref}

theorem steady_attachOne (l : ListenerId) (acc : Nat × Node) :
    Walk.Steady (fun acc : Nat × Node => acc.2.graph) Entity.durable
      (fun ref acc => attachOne l acc ref) (fun _ => True) acc where
  child _ _ _ _ _ _ := trivial
  act ref acc' hagrees x hx := by
    rw [attachOne_eq, modifyObject, Graph.shape_modify Graph.shape_listenIfDurable]
    exact hagrees x hx

theorem steady_unlisten (l : ListenerId) (n : Node) :
    Walk.Steady Node.graph Entity.durable (fun ref n => (n.unlisten l ref).2) (fun _ => True)
      n where
  child _ _ _ _ _ _ := trivial
  act ref n' hagrees x hx := by
    rw [unlisten_eq, modifyObject, Graph.shape_modify Graph.shape_unlisten]
    exact hagrees x hx

def attachWalk (n : Node) (l : ListenerId) (start : Ref) : Walk (Nat × Node) :=
  .run (fun acc => acc.2.graph) Entity.durable (fun ref acc => attachOne l acc ref) (0, n) start

def detachWalk (n : Node) (l : ListenerId) (start : Ref) : Walk Node :=
  .run Node.graph Entity.durable (fun ref n => (n.unlisten l ref).2) n start

theorem sound_attachWalk (n : Node) (l : ListenerId) (start : Ref) :
    Walk.Sound (fun acc : Nat × Node => acc.2.graph) Entity.durable
      (fun ref acc => attachOne l acc ref) (fun _ => True) (0, n) (n.attachWalk l start) :=
  .run (steady_attachOne l (0, n)) trivial

theorem refs_attachWalk (n : Node) (l : ListenerId) (start : Ref) :
    (n.attachWalk l start).refs = n.graph.durableWalk start :=
  Walk.refs_run (steady_attachOne l (0, n)) trivial (sound_attachWalk n l start).foretells_look

theorem state_attachWalk (n : Node) (l : ListenerId) (start : Ref) :
    (n.attachWalk l start).state = n.attach l start := by
  rw [(sound_attachWalk n l start).acted, refs_attachWalk]
  rfl

theorem sound_detachWalk (n : Node) (l : ListenerId) (start : Ref) :
    Walk.Sound Node.graph Entity.durable (fun ref n => (n.unlisten l ref).2) (fun _ => True) n
      (n.detachWalk l start) :=
  .run (steady_unlisten l n) trivial

theorem refs_detachWalk (n : Node) (l : ListenerId) (start : Ref) :
    (n.detachWalk l start).refs = n.graph.durableWalk start :=
  Walk.refs_run (steady_unlisten l n) trivial (sound_detachWalk n l start).foretells_look

theorem state_detachWalk (n : Node) (l : ListenerId) (start : Ref) :
    (n.detachWalk l start).state = n.detach l start := by
  rw [(sound_detachWalk n l start).acted, refs_detachWalk]
  rfl

theorem nodup_durableWalk (n : Node) (start : Ref) : (n.graph.durableWalk start).Nodup := by
  rw [← refs_attachWalk n ⟨0⟩]
  exact (sound_attachWalk n _ start).nodup_refs

theorem attachOne_fst (acc : Nat × Node) (ref : Ref) :
    (attachOne l acc ref).1 = acc.1 + if acc.2.graph.lacks l ref then 1 else 0 := by
  unfold attachOne Graph.lacks listen
  cases acc.2.graph.get? ref with
  | none => rfl
  | some o =>
    dsimp only
    cases hd : o.durable <;> cases hl : o.hasListener l <;> simp [hd, hl]

theorem foldl_attachOne_fst {refs : List Ref} (hn : refs.Nodup) (acc : Nat × Node) :
    (refs.foldl (attachOne l) acc).1 = acc.1 + (refs.filter (acc.2.graph.lacks l)).length := by
  induction refs generalizing acc with
  | nil => rfl
  | cons ref rest ih =>
    obtain ⟨href, hn⟩ := List.nodup_cons.1 hn
    have hrest : rest.filter ((attachOne l acc ref).2.graph.lacks l) =
        rest.filter (acc.2.graph.lacks l) := by
      apply List.filter_congr
      intro x hx
      have hne : ref ≠ x := fun e => href (e ▸ hx)
      rw [attachOne_eq]
      exact Graph.lacks_modify_of_ne hne
    rw [List.foldl_cons, ih hn, hrest, attachOne_fst, List.filter_cons]
    split
    · simp only [List.length_cons]
      omega
    · rfl

theorem attachOne_of_not_lacks {acc : Nat × Node} {ref : Ref}
    (h : acc.2.graph.lacks l ref = false) : attachOne l acc ref = acc := by
  have hsame : acc.2.modifyObject ref (·.listenIfDurable l) = acc.2 := by
    rw [modifyObject, Graph.modify_self]
    intro o ho
    unfold Entity.listenIfDurable Entity.listen
    split
    · rename_i hd
      rw [if_pos]
      simpa [Graph.lacks, ho, hd] using h
    · rfl
  apply Prod.ext
  · rw [attachOne_fst, h]
    rfl
  · rw [attachOne_eq, hsame]

theorem foldl_attachOne_of_not_lacks {refs : List Ref} {acc : Nat × Node}
    (h : ∀ ref ∈ refs, acc.2.graph.lacks l ref = false) :
    refs.foldl (attachOne l) acc = acc := by
  induction refs with
  | nil => rfl
  | cons ref rest ih =>
    rw [List.foldl_cons, attachOne_of_not_lacks (h ref List.mem_cons_self)]
    exact ih fun x hx => h x (List.mem_cons_of_mem ref hx)

theorem agrees_attach (n : Node) (l : ListenerId) (start : Ref) :
    n.graph.Agrees Entity.durable (fun _ => True) (n.attach l start).2.graph := by
  rw [← state_attachWalk]
  exact (sound_attachWalk n l start).agrees

def unheard (n : Node) (l : ListenerId) (start : Ref) : Set Ref :=
  {x | n.graph.Leads Entity.durable start x ∧
    ∃ o, n.graph.get? x = some o ∧ o.durable ∧ ¬o.hasListener l}

theorem attach_fst (hids : n.graph.ids.Nodup) :
    (n.attach l start).1 = (n.unheard l start).ncard := by
  have hset : n.unheard l start =
      ((n.graph.durableWalk start).filter (n.graph.lacks l)).toFinset := by
    ext x
    rw [List.coe_toFinset, Set.mem_ofPred_eq, List.mem_filter, Graph.lacks_iff, Graph.durableWalk,
      Graph.mem_walk hids]
    rfl
  rw [attach, foldl_attachOne_fst (nodup_durableWalk n start), hset, Set.ncard_coe_finset,
    List.toFinset_card_of_nodup ((nodup_durableWalk n start).filter _), Nat.zero_add]

theorem lacks_attach (hids : n.graph.ids.Nodup) {x : Ref}
    (hl : n.graph.Leads Entity.durable start x) : (n.attach l start).2.graph.lacks l x = false := by
  have hmem : x ∈ n.graph.durableWalk start := (Graph.mem_walk hids).2 hl
  rw [attach_eq, Graph.lacks, Graph.attached,
    Graph.get?_modifyEach fun o => o.listenIfDurable_listenIfDurable l, if_pos hmem]
  cases n.graph.get? x with
  | none => rfl
  | some o =>
    by_cases hd : o.durable
    · have hlisten : o.listenIfDurable l = o.listen l := if_pos hd
      simp [hlisten, o.listen_hasListener l]
    · have hsame : o.listenIfDurable l = o := if_neg hd
      simp [hsame, hd]

theorem attach_attach (hids : n.graph.ids.Nodup) :
    (n.attach l start).2.attach l start = (0, (n.attach l start).2) := by
  apply foldl_attachOne_of_not_lacks
  intro x hx
  obtain ⟨a, ha, hl⟩ := Graph.leads_of_mem_visit hx
  cases List.mem_singleton.1 ha
  exact lacks_attach hids ((agrees_attach n l start).symm.leads hl)

theorem get?_detach_attach (hids : n.graph.ids.Nodup) {x : Ref}
    (hl : n.graph.Leads Entity.durable start x) :
    ∃ o, ((n.attach l start).2.detach l start).graph.get? x = some o ∧ ¬o.hasListener l := by
  have hattached : (n.attach l start).2.graph.ids.Nodup := by
    rw [attach_eq, Graph.ids_attached]
    exact hids
  have hleads := (agrees_attach n l start).leads hl
  have hmem : x ∈ (n.attach l start).2.graph.durableWalk start :=
    (Graph.mem_walk hattached).2 hleads
  obtain ⟨o, ho⟩ := hleads.exists_last
  refine ⟨o.unlisten l, ?_, ?_⟩
  · rw [detach_eq, Graph.detached, Graph.get?_modifyEach fun o => o.unlisten_unlisten l,
      if_pos hmem, ho]
    rfl
  · simp [Entity.hasListener, Entity.unlisten]

structure Attaches (n : Node) (l : ListenerId) (start : Ref) : Prop where
  attaching : (n.attachWalk l start).state = n.attach l start
  detaching : (n.detachWalk l start).state = n.detach l start
  count : (n.attach l start).1 = (n.unheard l start).ncard
  again : (n.attach l start).2.attach l start = (0, (n.attach l start).2)
  gone : ∀ x, n.graph.Leads Entity.durable start x →
    ∃ o, ((n.attach l start).2.detach l start).graph.get? x = some o ∧ ¬o.hasListener l

theorem attaches (n : Node) (l : ListenerId) (start : Ref) (hids : n.graph.ids.Nodup) :
    n.Attaches l start where
  attaching := state_attachWalk n l start
  detaching := state_detachWalk n l start
  count := attach_fst hids
  again := attach_attach hids
  gone _ hl := get?_detach_attach hids hl

theorem exists_attachOne {acc : Nat × Node} {x : Ref} {o : Entity} (ref : Ref)
    (ho : acc.2.graph.get? x = some o) : ∃ p, (attachOne l acc ref).2.graph.get? x = some p ∧
      p.shape Entity.durable = o.shape Entity.durable := by
  have hshape := Graph.shape_modify (g := acc.2.graph) (f := (·.listenIfDurable l))
    Graph.shape_listenIfDurable ref x
  rw [ho, Option.map_some] at hshape
  rw [attachOne_eq]
  exact Option.map_eq_some_iff.1 hshape

theorem keepsLinks_attachOne (l : ListenerId) :
    Walk.KeepsLinks (fun acc : Nat × Node => acc.2.graph) fun ref acc => attachOne l acc ref := by
  intro ref acc x o ho
  obtain ⟨p, hp, hshape⟩ := exists_attachOne ref ho
  exact ⟨p, hp, (Entity.shape_eq_iff.1 hshape).1, (Entity.shape_eq_iff.1 hshape).2.1⟩

theorem keepsAnswers_attachOne (l : ListenerId) :
    Walk.KeepsAnswers (fun acc : Nat × Node => acc.2.graph) Entity.durable
      fun ref acc => attachOne l acc ref := by
  intro ref acc x o p ho hp
  obtain ⟨q, hq, hshape⟩ := exists_attachOne (l := l) ref ho
  cases hp.symm.trans hq
  exact (Entity.shape_eq_iff.1 hshape).2.2

end Node

/-- Walks end and come once to each object that is led to, and to no other. In particular a listener
is attached to what has not had it yet, a second time to nothing, and detached from everything. -/
theorem walks_come_once :
    (∀ {σ : Type} (graph : σ → Graph) (descend : Entity → Bool) (act : Ref → σ → σ) (s : σ)
      (start : Ref), (graph s).ids.Nodup → (graph s).Closed →
        (∃ o, (graph s).get? start = some o) → Walk.KeepsLinks graph act →
          Walk.Covers graph descend act s start (Walk.run graph descend act s start) ∧
            (Walk.KeepsAnswers graph descend act → ∀ x,
              x ∈ (Walk.run graph descend act s start).refs ↔ (graph s).Leads descend start x)) ∧
      ∀ (n : Node) (l : ListenerId) (start : Ref), n.graph.ids.Nodup → n.Attaches l start := by
  refine ⟨fun graph descend act s start hids hclosed hstart hlinks => ⟨?_, fun hanswers x => ?_⟩,
    Node.attaches⟩
  · have hanswers : Walk.KeepsAnswers graph (fun _ => true) act := fun _ _ _ _ _ _ _ => rfl
    exact Walk.covers_run hids (Walk.steady hclosed hlinks hanswers) hstart
  · exact Walk.mem_refs_run hids (Walk.steady hclosed hlinks hanswers) hstart x

theorem walks_come_once_shared :
    let object := fun (id : BitVec 128) (durable : Bool) (children : List Ref) =>
      ({ Entity.ofRecord (Record.bare ⟨id⟩ Category.queue) with durable, children } : Entity)
    let l : ListenerId := ⟨0⟩
    let graph : Graph := ⟨[object 1 true [⟨1⟩, ⟨2⟩, ⟨1⟩], (object 2 true [⟨0⟩, ⟨1⟩]).listen l,
      object 3 false [⟨3⟩], object 4 true []]⟩
    let n : Node := { Node.new "node" .new with graph }
    Walk.Covers (fun acc : Nat × Node => acc.2.graph) Entity.durable
      (fun ref acc => Node.attachOne l acc ref) (0, n) ⟨0⟩ (n.attachWalk l ⟨0⟩) ∧
      (n.attachWalk l ⟨0⟩).refs = [⟨0⟩, ⟨1⟩, ⟨2⟩] ∧
      (∀ x, x ∈ (n.attachWalk l ⟨0⟩).refs ↔ n.graph.Leads Entity.durable ⟨0⟩ x) ∧
      n.Attaches l ⟨0⟩ ∧ (n.attach l ⟨0⟩).1 = 1 := by
  intro object l graph n
  have hids : n.graph.ids.Nodup := by decide
  have hclosed : n.graph.Closed := by
    unfold Graph.Closed
    decide
  obtain ⟨hcovers, hreached⟩ := walks_come_once.1 (fun acc : Nat × Node => acc.2.graph)
    Entity.durable (fun ref acc => Node.attachOne l acc ref) (0, n) ⟨0⟩ hids hclosed ⟨_, rfl⟩
    (Node.keepsLinks_attachOne l)
  exact ⟨hcovers, by decide +kernel, hreached (Node.keepsAnswers_attachOne l),
    walks_come_once.2 n l ⟨0⟩ hids, by decide +kernel⟩

end BrokerConfig.Live
