import BrokerConfig.Proofs.ListenerPlacement

/-!
Graphs whose listeners are tethered: a listener is on an object only as long as it is on all objects
of some path that leads there from a root. Growth, attaching from a root or from below an object
that has the listener, and detaching below a link that is cut all keep this; detaching from one
object alone keeps it once the children of that object count as roots.
-/

namespace BrokerConfig.Live

namespace Graph

variable {g g' : Graph} {roots roots' : List Ref} {ls ls' : List ListenerId} {l : ListenerId}

/-- Whatever is listened to is durable, and a root leads there through objects that the same
listener is on. -/
structure Tethered (g : Graph) (roots : List Ref) (ls : List ListenerId) : Prop where
  durable : ∀ ref o l, g.get? ref = some o → l ∈ o.listeners → o.durable
  known : ∀ ref o l, g.get? ref = some o → l ∈ o.listeners → l ∈ ls
  led : ∀ ref o l, g.get? ref = some o → l ∈ o.listeners →
    ∃ root ∈ roots, g.Leads (·.hasListener l) root ref

theorem hasListener_iff {o : Entity} : o.hasListener l = true ↔ l ∈ o.listeners :=
  decide_eq_true_iff

namespace Tethered

theorem empty (roots : List Ref) (ls : List ListenerId) : Graph.empty.Tethered roots ls := by
  constructor <;> simp [get?, Graph.empty]

theorem mono (h : g.Tethered roots ls) (hroots : roots ⊆ roots') (hls : ls ⊆ ls') :
    g.Tethered roots' ls' where
  durable := h.durable
  known ref o l ho hl := hls (h.known ref o l ho hl)
  led ref o l ho hl := by
    obtain ⟨root, hroot, hleads⟩ := h.led ref o l ho hl
    exact ⟨root, hroots hroot, hleads⟩

end Tethered

structure Grows (g g' : Graph) : Prop where
  forth : ∀ ref o, g.get? ref = some o → ∃ o', g'.get? ref = some o' ∧ o'.category = o.category ∧
    o'.durable = o.durable ∧ o'.listeners = o.listeners ∧ o.children ⊆ o'.children
  back : ∀ ref o', g'.get? ref = some o' → (∃ o, g.get? ref = some o) ∨ o'.listeners = []

namespace Grows

theorem refl (g : Graph) : g.Grows g where
  forth _ o ho := ⟨o, ho, rfl, rfl, rfl, List.Subset.refl _⟩
  back _ o ho := .inl ⟨o, ho⟩

theorem trans {g'' : Graph} (h : g.Grows g') (k : g'.Grows g'') : g.Grows g'' where
  forth ref o ho := by
    obtain ⟨o', ho', hc, hd, hl, hch⟩ := h.forth ref o ho
    obtain ⟨o'', ho'', hc', hd', hl', hch'⟩ := k.forth ref o' ho'
    exact ⟨o'', ho'', hc'.trans hc, hd'.trans hd, hl'.trans hl, List.Subset.trans hch hch'⟩
  back ref o'' ho'' := by
    rcases k.back ref o'' ho'' with ⟨o', ho'⟩ | hnone
    · refine (h.back ref o' ho').imp_right fun hnone => ?_
      obtain ⟨_, hget, _, _, hl, _⟩ := k.forth ref o' ho'
      cases ho''.symm.trans hget
      exact hl.trans hnone
    · exact .inr hnone

theorem add (g : Graph) {o : Entity} (ho : o.listeners = []) : g.Grows (g.add o) where
  forth ref p hp := by
    refine ⟨p, ?_, rfl, rfl, rfl, List.Subset.refl _⟩
    rw [get?_add, if_neg (ne_next hp)]
    exact hp
  back ref p hp := by
    rw [get?_add] at hp
    split at hp
    · cases hp
      exact .inr ho
    · exact .inl ⟨p, hp⟩

theorem modify (g : Graph) (ref : Ref) {f : Entity → Entity}
    (hf : ∀ o, (f o).category = o.category ∧ (f o).durable = o.durable ∧
      (f o).listeners = o.listeners ∧ o.children ⊆ (f o).children) : g.Grows (g.modify ref f) where
  forth x o ho := by
    rw [get?_modify, ho]
    split
    · exact ⟨f o, rfl, hf o⟩
    · exact ⟨o, rfl, rfl, rfl, rfl, List.Subset.refl _⟩
  back x o' ho' := by
    obtain ⟨o, ho, _⟩ := of_modify ho'
    exact .inl ⟨o, ho⟩

theorem adopt (g : Graph) (parent child : Ref) : g.Grows (g.adopt parent child) :=
  .modify g parent fun _ => by exact ⟨rfl, rfl, rfl, List.subset_append_left _ _⟩

theorem addAll {os : List Entity} (hos : ∀ o ∈ os, o.listeners = []) (g : Graph) :
    g.Grows (g.addAll os).2 := by
  induction os generalizing g with
  | nil => exact .refl g
  | cons o rest ih =>
    have hfirst : g.Grows (g.add o) := .add g (hos o List.mem_cons_self)
    exact hfirst.trans (ih (fun p hp => hos p (List.mem_cons_of_mem o hp)) (g.add o))

theorem adoptEach (parent : Ref → Ref) (refs : List Ref) (g : Graph) :
    g.Grows (g.adoptEach parent refs) := by
  induction refs generalizing g with
  | nil => exact .refl g
  | cons ref rest ih => exact (Grows.adopt g (parent ref) ref).trans (ih _)

theorem plant (g : Graph) (root : Record) (others : List Record) :
    g.Grows (g.plant root others).2 := by
  have hmade : ∀ o ∈ others.map Entity.ofRecord, o.listeners = [] := by
    rintro _ ho
    obtain ⟨r, _, rfl⟩ := List.mem_map.1 ho
    rfl
  exact ((Grows.add g rfl).trans (.addAll hmade _)).trans (.adoptEach _ _ _)

variable (h : g.Grows g')

include h

theorem leads {a b : Ref} (hl : g.Leads (·.hasListener l) a b) :
    g'.Leads (·.hasListener l) a b := by
  apply hl.mono
  intro ref o ho
  obtain ⟨o', ho', _, _, hlisteners, hchildren⟩ := h.forth ref o ho
  refine ⟨o', ho', fun hopens => ?_, hchildren⟩
  rw [hasListener_iff] at hopens ⊢
  rwa [hlisteners]

theorem tethered (ht : g.Tethered roots ls) : g'.Tethered roots ls := by
  have hback : ∀ ref o' l, g'.get? ref = some o' → l ∈ o'.listeners →
      ∃ o, g.get? ref = some o ∧ l ∈ o.listeners ∧ o'.durable = o.durable := by
    intro ref o' l ho' hl
    rcases h.back ref o' ho' with ⟨o, ho⟩ | hnone
    · obtain ⟨_, hget, _, hd, hlisteners, _⟩ := h.forth ref o ho
      cases ho'.symm.trans hget
      exact ⟨o, ho, hlisteners ▸ hl, hd⟩
    · rw [hnone] at hl
      cases hl
  constructor
  · intro ref o' l ho' hl
    obtain ⟨o, ho, hlo, hd⟩ := hback ref o' l ho' hl
    exact hd.trans (ht.durable ref o l ho hlo)
  · intro ref o' l ho' hl
    obtain ⟨o, ho, hlo, _⟩ := hback ref o' l ho' hl
    exact ht.known ref o l ho hlo
  · intro ref o' l ho' hl
    obtain ⟨o, ho, hlo, _⟩ := hback ref o' l ho' hl
    obtain ⟨root, hroot, hleads⟩ := ht.led ref o l ho hlo
    exact ⟨root, hroot, h.leads hleads⟩

end Grows

theorem mem_listenIfDurable {o : Entity} {l' : ListenerId} :
    l' ∈ (o.listenIfDurable l).listeners ↔ l' ∈ o.listeners ∨ l' = l ∧ o.durable := by
  unfold Entity.listenIfDurable Entity.listen Entity.hasListener
  by_cases hd : o.durable
  · by_cases hl : l ∈ o.listeners
    · simp only [hd, hl, decide_true, if_true, and_true]
      exact ⟨.inl, fun h => h.elim id fun e => e ▸ hl⟩
    · simp [hd, hl]
  · simp [hd]

theorem attached_forth (l : ListenerId) (start : Ref) {ref : Ref} {o : Entity}
    (ho : g.get? ref = some o) :
    ∃ o', (g.attached l start).get? ref = some o' ∧ o'.category = o.category ∧
      o.listeners ⊆ o'.listeners ∧ o'.children = o.children := by
  rw [attached, get?_modifyEach fun o => o.listenIfDurable_listenIfDurable l, ho]
  split
  · exact ⟨_, rfl, o.listenIfDurable_field l Entity.category fun _ => rfl,
      fun _ hl => mem_listenIfDurable.2 (.inl hl),
      o.listenIfDurable_field l Entity.children fun _ => rfl⟩
  · exact ⟨o, rfl, rfl, List.Subset.refl _, rfl⟩

theorem attached_leads {start a b : Ref} {l l' : ListenerId}
    (hl : g.Leads (·.hasListener l') a b) : (g.attached l start).Leads (·.hasListener l') a b := by
  apply hl.mono
  intro ref o ho
  obtain ⟨o', ho', _, hlisteners, hchildren⟩ := attached_forth l start ho
  refine ⟨o', ho', fun hopens => ?_, hchildren ▸ List.Subset.refl _⟩
  rw [hasListener_iff] at hopens ⊢
  exact hlisteners hopens

def Attachable (g : Graph) (roots : List Ref) (l : ListenerId) (start : Ref) : Prop :=
  start ∈ roots ∨ ∃ parent o, g.get? parent = some o ∧ l ∈ o.listeners ∧ start ∈ o.children

theorem attached_back {start ref : Ref} {o' : Entity} {l' : ListenerId}
    (ho' : (g.attached l start).get? ref = some o') (hl' : l' ∈ o'.listeners) :
    ∃ o, g.get? ref = some o ∧ o'.durable = o.durable ∧
      (l' ∈ o.listeners ∨ l' = l ∧ o.durable ∧ ref ∈ g.durableWalk start) := by
  rw [attached, get?_modifyEach fun o => o.listenIfDurable_listenIfDurable l] at ho'
  split at ho'
  · rename_i hmem
    obtain ⟨o, ho, rfl⟩ := Option.map_eq_some_iff.1 ho'
    refine ⟨o, ho, o.listenIfDurable_field l Entity.durable fun _ => rfl, ?_⟩
    exact (mem_listenIfDurable.1 hl').imp_right fun hnew => ⟨hnew.1, hnew.2, hmem⟩
  · exact ⟨o', ho', rfl, .inl hl'⟩

theorem attached_walked {start ref : Ref} (h : ref ∈ g.durableWalk start) :
    (g.attached l start).Leads (·.hasListener l) start ref := by
  -- all durable objects that the walk visits are listened to afterwards
  have hvisited : ∀ x ∈ g.durableWalk start, ∀ o, g.get? x = some o →
      ∃ o', (g.attached l start).get? x = some o' ∧
        (o.durable → o'.hasListener l ∧ o.children ⊆ o'.children) := by
    intro x hx o ho
    refine ⟨o.listenIfDurable l, ?_, fun hd => ⟨?_, ?_⟩⟩
    · rw [attached, get?_modifyEach fun o => o.listenIfDurable_listenIfDurable l, if_pos hx, ho]
      rfl
    · exact hasListener_iff.2 (mem_listenIfDurable.2 (.inr ⟨rfl, hd⟩))
    · rw [o.listenIfDurable_field l Entity.children fun _ => rfl]
      exact List.Subset.refl _
  obtain ⟨a, ha, hleads⟩ := leads_of_visited (g.attached l start) (·.hasListener l) hvisited h
  exact List.mem_singleton.1 ha ▸ hleads

theorem Tethered.attached {start : Ref} (h : g.Tethered roots ls) (hl : l ∈ ls)
    (hstart : g.Attachable roots l start) : (g.attached l start).Tethered roots ls := by
  have hled : ∃ root ∈ roots, ∀ {ref : Ref}, ref ∈ g.durableWalk start →
      (g.attached l start).Leads (·.hasListener l) root ref := by
    rcases hstart with hroot | ⟨parent, p, hp, hlp, hchild⟩
    · exact ⟨start, hroot, attached_walked⟩
    · obtain ⟨root, hroot, hleads⟩ := h.led parent p l hp hlp
      obtain ⟨p', hp', _, hlisteners, hchildren⟩ := attached_forth l start hp
      exact ⟨root, hroot, fun hmem => (attached_leads hleads).trans_child hp'
        (hasListener_iff.2 (hlisteners hlp)) (hchildren ▸ hchild) (attached_walked hmem)⟩
  constructor
  · intro ref o' l' ho' hl'
    obtain ⟨o, ho, hd, hold | ⟨_, hdurable, _⟩⟩ := attached_back ho' hl'
    · exact hd.trans (h.durable ref o l' ho hold)
    · exact hd.trans hdurable
  · intro ref o' l' ho' hl'
    obtain ⟨o, ho, _, hold | ⟨rfl, _⟩⟩ := attached_back ho' hl'
    · exact h.known ref o l' ho hold
    · exact hl
  · intro ref o' l' ho' hl'
    obtain ⟨o, ho, _, hold | ⟨rfl, _, hmem⟩⟩ := attached_back ho' hl'
    · obtain ⟨root, hroot, hleads⟩ := h.led ref o l' ho hold
      exact ⟨root, hroot, attached_leads hleads⟩
    · obtain ⟨root, hroot, hleads⟩ := hled
      exact ⟨root, hroot, hleads hmem⟩

structure Stripped (g : Graph) (child : Ref) (ls : List ListenerId) (g' : Graph) : Prop where
  forth : ∀ ref o, g.get? ref = some o → ∃ listeners, g'.get? ref = some { o with listeners } ∧
    ∀ l, l ∈ listeners ↔ l ∈ o.listeners ∧ ¬(l ∈ ls ∧ g.Leads Entity.durable child ref)
  back : ∀ ref o', g'.get? ref = some o' → ∃ o, g.get? ref = some o

namespace Stripped

variable {child : Ref}

theorem nil (g : Graph) (child : Ref) : g.Stripped child [] g where
  forth _ o ho := ⟨o.listeners, ho, fun l => by simp⟩
  back _ o ho := ⟨o, ho⟩

theorem leads_iff (h : g.Stripped child ls g') {a b : Ref} :
    g'.Leads Entity.durable a b ↔ g.Leads Entity.durable a b := by
  constructor
  · intro hl
    apply hl.mono
    intro ref o' ho'
    obtain ⟨o, ho⟩ := h.back ref o' ho'
    obtain ⟨_, hget, _⟩ := h.forth ref o ho
    cases ho'.symm.trans hget
    exact ⟨o, ho, fun hd => hd, List.Subset.refl _⟩
  · intro hl
    apply hl.mono
    intro ref o ho
    obtain ⟨_, hget, _⟩ := h.forth ref o ho
    exact ⟨_, hget, fun hd => hd, List.Subset.refl _⟩

theorem distinct (h : g.Stripped child ls g') (hdistinct : g.DistinctBelow Entity.durable [child]) :
    g'.DistinctBelow Entity.durable [child] := by
  intro a ha b hb x y o' p' hx hy ho' hp' hid
  obtain ⟨o, ho⟩ := h.back x o' ho'
  obtain ⟨p, hp⟩ := h.back y p' hp'
  obtain ⟨_, hgeto, _⟩ := h.forth x o ho
  obtain ⟨_, hgetp, _⟩ := h.forth y p hp
  cases ho'.symm.trans hgeto
  cases hp'.symm.trans hgetp
  exact hdistinct a ha b hb x y o p (h.leads_iff.1 hx) (h.leads_iff.1 hy) ho hp hid

theorem detached (h : g.Stripped child ls g') (hdistinct : g.DistinctBelow Entity.durable [child])
    (l : ListenerId) : g.Stripped child (ls ++ [l]) (g'.detached l child) := by
  have hwalk : ∀ ref, ref ∈ g'.durableWalk child ↔ g.Leads Entity.durable child ref :=
    fun ref => (h.distinct hdistinct).mem_walk.trans h.leads_iff
  have hget : ∀ ref, (g'.detached l child).get? ref =
      if ref ∈ g'.durableWalk child then (g'.get? ref).map (·.unlisten l) else g'.get? ref :=
    get?_modifyEach (fun o => o.unlisten_unlisten l) _
  constructor
  · intro ref o ho
    obtain ⟨listeners, ho', hlisteners⟩ := h.forth ref o ho
    by_cases hbelow : g.Leads Entity.durable child ref
    · refine ⟨listeners.filter (· ≠ l), ?_, fun l' => ?_⟩
      · rw [hget, if_pos ((hwalk ref).2 hbelow), ho']
        rfl
      · rw [List.mem_filter, hlisteners, decide_eq_true_eq, List.mem_append, List.mem_singleton]
        simp only [hbelow, and_true]
        grind
    · refine ⟨listeners, ?_, fun l' => ?_⟩
      · rw [hget, if_neg fun hmem => hbelow ((hwalk ref).1 hmem), ho']
      · rw [hlisteners]
        simp only [hbelow, and_false]
  · intro ref o' ho'
    rw [hget] at ho'
    split at ho'
    · obtain ⟨o, ho, _⟩ := Option.map_eq_some_iff.1 ho'
      exact h.back ref o ho
    · exact h.back ref o' ho'

end Stripped

theorem mem_eraseP_or_eq {α : Type} {xs : List α} {q : α → Bool} {a b : α}
    (hf : xs.find? q = some a) (hb : b ∈ xs) : b ∈ xs.eraseP q ∨ b = a := by
  obtain ⟨hq, before, after, rfl, hbefore⟩ := List.find?_eq_some_iff_append.1 hf
  have hpassed : ∀ x ∈ before, ¬q x = true := fun x hx => by simpa using hbefore x hx
  rw [List.eraseP_append_right _ hpassed, List.eraseP_cons_of_pos hq]
  grind

section Cut

variable {parent child : Ref} {o : Entity} {id : RecordId} (h : g.Tethered roots ls)
  (hs : (g.unlink parent id).Stripped child o.listeners g')

include hs

theorem Stripped.back_unlink {ref : Ref} {o' : Entity} (ho' : g'.get? ref = some o') :
    ∃ x, g.get? ref = some x ∧ o'.durable = x.durable ∧ ∀ l, l ∈ o'.listeners ↔
      l ∈ x.listeners ∧
        ¬(l ∈ o.listeners ∧ (g.unlink parent id).Leads Entity.durable child ref) := by
  obtain ⟨cut, hcut⟩ := hs.back ref o' ho'
  obtain ⟨listeners, hget, hlisteners⟩ := hs.forth ref cut hcut
  cases ho'.symm.trans hget
  obtain ⟨x, hx, ⟨_, rfl⟩ | ⟨_, rfl⟩⟩ := of_modify hcut
  · exact ⟨x, hx, rfl, hlisteners⟩
  · exact ⟨cut, hx, rfl, hlisteners⟩

include h

theorem Tethered.durable_leads {a b : Ref} (hl : g'.Leads (·.hasListener l) a b) :
    (g.unlink parent id).Leads Entity.durable a b := by
  apply hl.transfer
  intro ref o' ho'
  obtain ⟨cut, hcut⟩ := hs.back ref o' ho'
  obtain ⟨_, hget, _⟩ := hs.forth ref cut hcut
  cases ho'.symm.trans hget
  refine ⟨cut, hcut, fun hopens => ⟨?_, List.Subset.refl _⟩⟩
  obtain ⟨x, hx, hd, hkept⟩ := hs.back_unlink ho'
  exact hd.trans (h.durable ref x l hx ((hkept l).1 (hasListener_iff.1 hopens)).1)

theorem Tethered.unlinked_leads (ho : g.get? parent = some o)
    (hfound : o.children.find? (g.hasId id) = some child) {a b : Ref}
    (hl : g.Leads (·.hasListener l) a b)
    (hspared : ¬(l ∈ o.listeners ∧ (g.unlink parent id).Leads Entity.durable child b)) :
    g'.Leads (·.hasListener l) a b := by
  -- a link that is missing, or an object that has lost the listener, would put the end of the path
  -- below the cut, where the listener has been detached
  induction hl with
  | @here b x get =>
    obtain ⟨cut, hcut⟩ := exists_modify (f := fun o =>
      { o with children := o.children.eraseP (g.hasId id) }) (j := parent) get
    obtain ⟨_, hget, _⟩ := hs.forth b cut hcut
    exact .here hget
  | @down a next _ p hp hopens hmem _ ih =>
    have hnext := ih hspared
    have hlp : l ∈ p.listeners := hasListener_iff.1 hopens
    obtain ⟨cut, hcut, hcutListeners, hcutDurable, hedge⟩ : ∃ cut,
        (g.unlink parent id).get? a = some cut ∧ cut.listeners = p.listeners ∧
          cut.durable = p.durable ∧ next ∈ cut.children := by
      rw [unlink, get?_modify, hp]
      split
      · rename_i heq
        subst heq
        cases ho.symm.trans hp
        refine ⟨_, rfl, rfl, rfl, (mem_eraseP_or_eq hfound hmem).resolve_right ?_⟩
        rintro rfl
        exact hspared ⟨hlp, h.durable_leads hs hnext⟩
      · exact ⟨p, rfl, rfl, rfl, hmem⟩
    obtain ⟨listeners, hget, hlisteners⟩ := hs.forth a cut hcut
    have hkept : l ∈ listeners := by
      refine (hlisteners l).2 ⟨hcutListeners ▸ hlp, fun hgone => hspared ⟨hgone.1, ?_⟩⟩
      exact hgone.2.trans_child hcut (hcutDurable.trans (h.durable a p l hp hlp)) hedge
        (h.durable_leads hs hnext)
    exact .down hget (hasListener_iff.2 hkept) hedge hnext

theorem Tethered.unlinked (ho : g.get? parent = some o)
    (hfound : o.children.find? (g.hasId id) = some child) : g'.Tethered roots ls where
  durable ref o' l ho' hl := by
    obtain ⟨x, hx, hd, hlisteners⟩ := hs.back_unlink ho'
    exact hd.trans (h.durable ref x l hx ((hlisteners l).1 hl).1)
  known ref o' l ho' hl := by
    obtain ⟨x, hx, _, hlisteners⟩ := hs.back_unlink ho'
    exact h.known ref x l hx ((hlisteners l).1 hl).1
  led ref o' l ho' hl := by
    obtain ⟨x, hx, _, hlisteners⟩ := hs.back_unlink ho'
    obtain ⟨hlx, hspared⟩ := (hlisteners l).1 hl
    obtain ⟨root, hroot, hleads⟩ := h.led ref x l hx hlx
    exact ⟨root, hroot, h.unlinked_leads hs ho hfound hleads hspared⟩

end Cut

theorem Tethered.unheard (child : Ref) (h : g.Tethered roots ls)
    (hforth : ∀ ref o, g.get? ref = some o → ref ≠ child → g'.get? ref = some o)
    (hback : ∀ ref o', g'.get? ref = some o' → ref ≠ child → g.get? ref = some o')
    (hchild : ∀ o', g'.get? child = some o' → o'.listeners = [])
    (hroots : ∀ root ∈ roots, root ≠ child → root ∈ roots')
    (hleft : ∀ o c, g.get? child = some o → c ∈ o.children → c ∈ roots') :
    g'.Tethered roots' ls := by
  have hother : ∀ ref o' l, g'.get? ref = some o' → l ∈ o'.listeners → ref ≠ child := by
    rintro ref o' l ho' hl rfl
    rw [hchild o' ho'] at hl
    cases hl
  constructor
  · intro ref o' l ho' hl
    exact h.durable ref o' l (hback ref o' ho' (hother ref o' l ho' hl)) hl
  · intro ref o' l ho' hl
    exact h.known ref o' l (hback ref o' ho' (hother ref o' l ho' hl)) hl
  · intro ref o' l ho' hl
    have hne := hother ref o' l ho' hl
    obtain ⟨root, hroot, hleads⟩ := h.led ref o' l (hback ref o' ho' hne) hl
    -- the part of the path behind the object starts at one of its children
    suffices hpath : ∀ a, g.Leads (·.hasListener l) a ref →
        (a ≠ child ∧ g'.Leads (·.hasListener l) a ref) ∨
          ∃ next ∈ roots', g'.Leads (·.hasListener l) next ref by
      rcases hpath root hleads with ⟨hrootne, hkept⟩ | hrest
      · exact ⟨root, hroots root hroot hrootne, hkept⟩
      · exact hrest
    intro a ha
    clear hleads
    induction ha with
    | here _ => exact .inl ⟨hne, .here ho'⟩
    | @down a next _ p hp hopens hmem _ ih =>
      rcases ih ho' hne with ⟨hnextne, hnext⟩ | hrest
      · by_cases ha : a = child
        · subst ha
          exact .inr ⟨next, hleft p next hp hmem, hnext⟩
        · exact .inl ⟨ha, .down (hforth a p hp ha) hopens hmem hnext⟩
      · exact .inr hrest

end Graph

end BrokerConfig.Live
