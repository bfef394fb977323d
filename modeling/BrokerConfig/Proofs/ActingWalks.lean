import Mathlib.Data.List.Nodup
import BrokerConfig.Live.Walk
import BrokerConfig.Proofs.Walks

namespace BrokerConfig.Live

def Entity.shape (look : Entity → Bool) (o : Entity) : RecordId × List Ref × Bool :=
  (o.id, o.children, look o)

theorem Entity.shape_eq_iff {look : Entity → Bool} {o p : Entity} :
    o.shape look = p.shape look ↔ o.id = p.id ∧ o.children = p.children ∧ look o = look p := by
  simp [shape]

def Graph.Agrees (look : Entity → Bool) (known : Ref → Prop) (g h : Graph) : Prop :=
  ∀ ref, known ref → (h.get? ref).map (·.shape look) = (g.get? ref).map (·.shape look)

theorem Graph.Agrees.symm {look : Entity → Bool} {known : Ref → Prop} {g h : Graph}
    (k : g.Agrees look known h) : h.Agrees look known g :=
  fun ref hknown => (k ref hknown).symm

theorem Graph.Agrees.exists_get? {look : Entity → Bool} {known : Ref → Prop} {g h : Graph}
    (k : g.Agrees look known h) {ref : Ref} (hknown : known ref) {o : Entity}
    (ho : h.get? ref = some o) : ∃ p, g.get? ref = some p ∧ o.shape look = p.shape look := by
  have hshape := k ref hknown
  rw [ho, Option.map_some] at hshape
  obtain ⟨p, hp, heq⟩ := Option.map_eq_some_iff.1 hshape.symm
  exact ⟨p, hp, heq.symm⟩

namespace Walk

variable {σ : Type} {graph : σ → Graph} {descend look : Entity → Bool} {act : Ref → σ → σ} {s : σ}
  {known : Ref → Prop} {w w' : Walk σ}

structure Steady (graph : σ → Graph) (look : Entity → Bool) (act : Ref → σ → σ)
    (known : Ref → Prop) (s : σ) : Prop where
  child : ∀ ref o child, known ref → (graph s).get? ref = some o → child ∈ o.children → known child
  act : ∀ ref s', (graph s).Agrees look known (graph s') →
    (graph s).Agrees look known (graph (act ref s'))

inductive Turn (graph : σ → Graph) (descend : Entity → Bool) (act : Ref → σ → σ) (w : Walk σ) :
    Walk σ → Prop
  | ended (none : w.pending = []) : Turn graph descend act w w
  | skip (ref : Ref) (pending : List Ref) (next : w.pending = ref :: pending)
    (old : ∀ o, (graph w.state).get? ref = some o → o.id ∈ w.seen) :
    Turn graph descend act w { w with pending }
  | visit (ref : Ref) (pending : List Ref) (o left : Entity) (next : w.pending = ref :: pending)
    (get : (graph w.state).get? ref = some o) (unseen : o.id ∉ w.seen)
    (left_eq : ((graph (act ref w.state)).get? ref).getD o = left) :
    Turn graph descend act w
      { state := act ref w.state
        seen := o.id :: w.seen
        pending := (if descend left then left.children.reverse else []) ++ pending
        visited := w.visited ++ [(ref, left)] }

theorem turn_turn (w : Walk σ) : Turn graph descend act w (w.turn graph descend act) := by
  unfold turn
  split
  · rename_i h
    exact .ended h
  · rename_i ref pending h
    split
    · rename_i hget
      exact .skip ref pending h (by rw [hget]; rintro _ ⟨⟩)
    · rename_i o hget
      split
      · rename_i hseen
        refine .skip ref pending h ?_
        rw [hget]
        rintro _ ⟨⟩
        exact hseen
      · rename_i hseen
        exact .visit ref pending o _ h hget hseen rfl

structure Sound (graph : σ → Graph) (look : Entity → Bool) (act : Ref → σ → σ)
    (known : Ref → Prop) (s : σ) (w : Walk σ) : Prop where
  agrees : (graph s).Agrees look known (graph w.state)
  pending : ∀ ref ∈ w.pending, known ref
  seen : w.visited.map (fun v => v.2.id) = w.seen.reverse
  distinct : w.seen.Nodup
  own : ∀ v ∈ w.visited, ∃ o, (graph s).get? v.1 = some o ∧ v.2.shape look = o.shape look
  acted : w.state = w.refs.foldl (fun s ref => act ref s) s

theorem Sound.start (s : σ) {ref : Ref} (h : known ref) :
    Sound graph look act known s (start s ref) where
  agrees _ _ := rfl
  pending _ hmem := List.mem_singleton.1 hmem ▸ h
  seen := rfl
  distinct := List.nodup_nil
  own _ hv := absurd hv List.not_mem_nil
  acted := rfl

theorem Sound.visit (h : Sound graph look act known s w) (hs : Steady graph look act known s)
    {ref : Ref} {pending : List Ref} {o left : Entity} (next : w.pending = ref :: pending)
    (get : (graph w.state).get? ref = some o)
    (left_eq : ((graph (act ref w.state)).get? ref).getD o = left) :
    ∃ p, (graph s).get? ref = some p ∧ o.id = p.id ∧ left.shape look = p.shape look := by
  have hknown : known ref := h.pending ref (by simp [next])
  obtain ⟨p, hp, ho⟩ := h.agrees.exists_get? hknown get
  have hshape := hs.act ref w.state h.agrees ref hknown
  rw [hp, Option.map_some] at hshape
  obtain ⟨q, hq, hkept⟩ := Option.map_eq_some_iff.1 hshape
  refine ⟨p, hp, (Entity.shape_eq_iff.1 ho).1, ?_⟩
  rw [← left_eq, hq]
  exact hkept

theorem Sound.turn (h : Sound graph look act known s w) (hs : Steady graph look act known s)
    (ht : Turn graph descend act w w') : Sound graph look act known s w' := by
  cases ht with
  | ended _ => exact h
  | skip ref pending next _ =>
    refine { h with pending := fun x hx => h.pending x ?_ }
    rw [next]
    exact List.mem_cons_of_mem ref hx
  | visit ref pending o left next get unseen left_eq =>
    obtain ⟨p, hp, hid, hshape⟩ := h.visit hs next get left_eq
    obtain ⟨hleft, hchildren, _⟩ := Entity.shape_eq_iff.1 hshape
    constructor
    · exact hs.act ref w.state h.agrees
    · intro x hx
      rcases List.mem_append.1 hx with hx | hx
      · split at hx
        · rw [List.mem_reverse, hchildren] at hx
          exact hs.child ref p x (h.pending ref (by simp [next])) hp hx
        · cases hx
      · exact h.pending x (next ▸ List.mem_cons_of_mem ref hx)
    · simp [h.seen, hleft, hid]
    · exact List.nodup_cons.2 ⟨unseen, h.distinct⟩
    · intro v hv
      rcases List.mem_append.1 hv with hv | hv
      · exact h.own v hv
      · cases List.mem_singleton.1 hv
        exact ⟨p, hp, hshape⟩
    · rw [refs, List.map_append, List.foldl_append, ← refs, ← h.acted]
      rfl

def spare (g : Graph) (w : Walk σ) : Nat := w.pending.length + g.unseenLinks w.seen

theorem Sound.spare_turn (h : Sound graph look act known s w) (hs : Steady graph look act known s)
    (ht : Turn graph descend act w w') :
    w'.pending = [] ∨ spare (graph s) w' < spare (graph s) w := by
  cases ht with
  | ended none => exact .inl none
  | skip ref pending next _ =>
    right
    simp [spare, next]
  | visit ref pending o left next get unseen left_eq =>
    right
    obtain ⟨p, hp, hid, hshape⟩ := h.visit hs next get left_eq
    obtain ⟨_, hchildren, _⟩ := Entity.shape_eq_iff.1 hshape
    have hlinks := Graph.unseenLinks_cons (Graph.mem_of_get? hp) (hid ▸ unseen)
    have hlength : (if descend left then left.children.reverse else []).length ≤
        p.children.length := by
      rw [← hchildren]
      split <;> simp
    simp only [spare, next, hid, List.length_append, List.length_cons]
    omega

def opened (descend : Entity → Bool) (w : Walk σ) (o : Entity) : Bool :=
  w.visited.any fun v => v.2.id = o.id && descend v.2

def Foretells (opens descend : Entity → Bool) (g : Graph) (w : Walk σ) : Prop :=
  ∀ v ∈ w.visited, ∀ o, g.get? v.1 = some o → opens o = descend v.2

theorem Sound.refs_turn (h : Sound graph look act known s w) (hs : Steady graph look act known s)
    (ht : Turn graph descend act w w') {opens : Entity → Bool}
    (hopens : Foretells opens descend (graph s) w') (k : Nat) :
    w'.refs ++ (graph s).visit opens k w'.seen w'.pending =
      w.refs ++ (graph s).visit opens (k + 1) w.seen w.pending := by
  cases ht with
  | ended none => cases k <;> simp [none, Graph.visit]
  | skip ref pending next old =>
    rw [next, Graph.visit]
    cases hp : (graph s).get? ref with
    | none => rfl
    | some p =>
      -- no action has brought the object up, so it is the one that was seen
      obtain ⟨o, ho, hshape⟩ := h.agrees.symm.exists_get? (h.pending ref (by simp [next])) hp
      have hseen : p.id ∈ w.seen := (Entity.shape_eq_iff.1 hshape).1 ▸ old o ho
      simp [hseen, refs]
  | visit ref pending o left next get unseen left_eq =>
    obtain ⟨p, hp, hid, hshape⟩ := h.visit hs next get left_eq
    obtain ⟨_, hchildren, _⟩ := Entity.shape_eq_iff.1 hshape
    have hp' : opens p = descend left := hopens (ref, left) (by simp) p hp
    rw [next, Graph.visit, hp]
    dsimp only
    rw [← hid, if_neg unseen, hp', ← hchildren]
    simp [refs]

theorem turns_of_ended (h : w.pending = []) (k : Nat) : turns graph descend act k w = w := by
  induction k with
  | zero => rfl
  | succ k ih =>
    have hturn : w.turn graph descend act = w := by rw [turn, h]
    rw [turns, hturn, ih]

theorem Sound.turns (h : Sound graph look act known s w) (hs : Steady graph look act known s)
    (k : Nat) : Sound graph look act known s (turns graph descend act k w) := by
  induction k generalizing w with
  | zero => exact h
  | succ k ih => exact ih (h.turn hs (turn_turn w))

theorem Sound.pending_turns (h : Sound graph look act known s w)
    (hs : Steady graph look act known s) {k : Nat} (hk : spare (graph s) w ≤ k) :
    (Walk.turns graph descend act k w).pending = [] := by
  induction k generalizing w with
  | zero =>
    have hlength : w.pending.length = 0 := by
      unfold spare at hk
      omega
    exact List.eq_nil_of_length_eq_zero hlength
  | succ k ih =>
    have ht : Turn graph descend act w (w.turn graph descend act) := turn_turn w
    rw [Walk.turns]
    rcases h.spare_turn hs ht with hended | hless
    · rw [turns_of_ended hended, hended]
    · exact ih (h.turn hs ht) (by omega)

theorem visited_turn (ht : Turn graph descend act w w') : w.visited <+: w'.visited := by
  cases ht with
  | ended | skip => exact List.prefix_refl _
  | visit => exact List.prefix_append ..

theorem visited_turns (w : Walk σ) (k : Nat) :
    w.visited <+: (turns graph descend act k w).visited := by
  induction k generalizing w with
  | zero => exact List.prefix_refl _
  | succ k ih => exact (visited_turn (turn_turn w)).trans (ih _)

theorem Sound.refs_turns (h : Sound graph look act known s w) (hs : Steady graph look act known s)
    {opens : Entity → Bool} {k : Nat}
    (hopens : Foretells opens descend (graph s) (Walk.turns graph descend act k w)) :
    (Walk.turns graph descend act k w).refs =
      w.refs ++ (graph s).visit opens k w.seen w.pending := by
  induction k generalizing w with
  | zero => simp [Walk.turns, Graph.visit]
  | succ k ih =>
    have ht : Turn graph descend act w (w.turn graph descend act) := turn_turn w
    -- what has been visited after one turn stays visited
    have hnext : Foretells opens descend (graph s) (w.turn graph descend act) :=
      fun v hv => hopens v ((visited_turns _ k).subset hv)
    rw [Walk.turns, ih (h.turn hs ht) hopens, h.refs_turn hs ht hnext]

theorem Sound.run (hs : Steady graph look act known s) {ref : Ref} (href : known ref) :
    Sound graph look act known s (run graph descend act s ref) :=
  (Sound.start s href).turns hs _

theorem pending_run (hs : Steady graph look act known s) {ref : Ref} (href : known ref) :
    (run graph descend act s ref).pending = [] := by
  apply (Sound.start s href).pending_turns hs
  simp only [spare, start, Graph.unseenLinks_nil, List.length_singleton]
  omega

theorem refs_run (hs : Steady graph look act known s) {ref : Ref} (href : known ref)
    {opens : Entity → Bool} (h : Foretells opens descend (graph s) (run graph descend act s ref)) :
    (run graph descend act s ref).refs = (graph s).walk opens ref :=
  (Sound.start s href).refs_turns hs h

theorem Sound.nodup_ids (h : Sound graph look act known s w) :
    (w.visited.map fun v => v.2.id).Nodup := by
  rw [h.seen, List.nodup_reverse]
  exact h.distinct

theorem Sound.foretells_opened (h : Sound graph look act known s w) :
    Foretells (w.opened descend) descend (graph s) w := by
  intro v hv o ho
  obtain ⟨p, hp, hshape⟩ := h.own v hv
  cases ho.symm.trans hp
  have hid : v.2.id = o.id := (Entity.shape_eq_iff.1 hshape).1
  rw [Bool.eq_iff_iff, opened, List.any_eq_true]
  constructor
  · rintro ⟨u, hu, hopen⟩
    obtain ⟨huid, hdescend⟩ := Bool.and_eq_true_iff.1 hopen
    rw [List.inj_on_of_nodup_map h.nodup_ids hv hu (hid.trans (of_decide_eq_true huid).symm)]
    exact hdescend
  · intro hdescend
    exact ⟨v, hv, by simp [hid, hdescend]⟩

theorem Sound.foretells_look (h : Sound graph look act known s w) :
    Foretells look look (graph s) w := by
  intro v hv o ho
  obtain ⟨p, hp, hshape⟩ := h.own v hv
  cases ho.symm.trans hp
  exact (Entity.shape_eq_iff.1 hshape).2.2.symm

theorem Sound.nodup_refs (h : Sound graph look act known s w) : w.refs.Nodup := by
  have hmap : w.refs.map (fun ref => ((graph s).get? ref).map Entity.id) =
      (w.visited.map fun v => v.2.id).map some := by
    rw [refs, List.map_map, List.map_map]
    apply List.map_congr_left
    intro v hv
    obtain ⟨p, hp, hshape⟩ := h.own v hv
    simp [hp, (Entity.shape_eq_iff.1 hshape).1]
  apply List.Nodup.of_map fun ref => ((graph s).get? ref).map Entity.id
  rw [hmap]
  exact h.nodup_ids.map fun _ _ => Option.some.inj

structure Covers (graph : σ → Graph) (descend : Entity → Bool) (act : Ref → σ → σ) (s : σ)
    (start : Ref) (w : Walk σ) : Prop where
  ended : w.pending = []
  acted : w.state = w.refs.foldl (fun s ref => act ref s) s
  once : w.refs.Nodup
  reached : ∀ ref, ref ∈ w.refs ↔ (graph s).Leads (w.opened descend) start ref

theorem covers_run (hids : (graph s).ids.Nodup) (hs : Steady graph look act known s) {ref : Ref}
    (href : known ref) : Covers graph descend act s ref (run graph descend act s ref) := by
  have h : Sound graph look act known s (run graph descend act s ref) := Sound.run hs href
  refine ⟨pending_run hs href, h.acted, h.nodup_refs, fun x => ?_⟩
  rw [← Graph.mem_walk hids, refs_run hs href h.foretells_opened]

theorem mem_refs_run (hids : (graph s).ids.Nodup) (hs : Steady graph descend act known s)
    {ref : Ref} (href : known ref) (x : Ref) :
    x ∈ (run graph descend act s ref).refs ↔ (graph s).Leads descend ref x := by
  rw [refs_run hs href (Sound.run hs href).foretells_look, Graph.mem_walk hids]

end Walk

end BrokerConfig.Live
