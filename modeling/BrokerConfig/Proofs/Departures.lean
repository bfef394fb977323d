import BrokerConfig.Live.Activity
import BrokerConfig.Proofs.Tethers

/-!
Objects that have left the graph of a node. The listeners of a node are tethered to its virtual
hosts and to the objects that were abandoned, because the virtual host above them was removed or
because a recovery put another graph in the place of theirs. So an object that neither of these
lead to has no listener, and its changes are not written.
-/

namespace BrokerConfig.Live

theorem Graph.Stripped.told {n : Node} {g : Graph} {parent child : Ref} {o : Entity}
    {done : List ListenerId} (h : g.Stripped child done n.graph) (ls : List ListenerId)
    (ho : g.get? parent = some o) (hdistinct : g.DistinctBelow Entity.durable [child]) :
    ∃ g', n.Leaves g' (ls.foldl (fun n l => n.onChildRemoved l parent child) n) ∧
      g.Stripped child (done ++ ls) g' := by
  induction ls generalizing n done with
  | nil => exact ⟨n.graph, .refl n, by rwa [List.append_nil]⟩
  | cons l rest ih =>
    obtain ⟨_, hget, _⟩ := h.forth parent o ho
    have hleaves := Node.leaves_onChildRemoved n l hget child
    have hnext := h.detached hdistinct l
    rw [← hleaves.graph] at hnext
    obtain ⟨g', hrest, hstripped⟩ := ih hnext
    rw [List.append_assoc] at hstripped
    exact ⟨g', hleaves.trans hrest, hstripped⟩

namespace Node

variable {n n' : Node} {left : List Ref} {l : ListenerId}

def hosts (n : Node) : List Ref := n.children.filter n.graph.isVirtualHost

theorem mem_hosts {ref : Ref} : ref ∈ n.hosts ↔ ref ∈ n.children ∧ n.graph.isVirtualHost ref :=
  List.mem_filter

theorem hosts_subset (hchildren : n.children ⊆ n'.children)
    (hgraph : ∀ ref o, n.graph.get? ref = some o →
      ∃ o', n'.graph.get? ref = some o' ∧ o'.category = o.category) : n.hosts ⊆ n'.hosts := by
  intro ref href
  obtain ⟨hmem, hv⟩ := mem_hosts.1 href
  obtain ⟨o, ho, hc⟩ := Graph.isVirtualHost_iff.1 hv
  obtain ⟨o', ho', hc'⟩ := hgraph ref o ho
  exact mem_hosts.2 ⟨hchildren hmem, Graph.isVirtualHost_iff.2 ⟨o', ho', hc'.trans hc⟩⟩

def Tethered (n : Node) (left : List Ref) : Prop :=
  n.graph.Tethered (n.hosts ++ left) n.followers

namespace Tethered

theorem of_hosts (h : n'.graph.Tethered (n.hosts ++ left) n'.followers)
    (hhosts : n.hosts ⊆ n'.hosts) : n'.Tethered left :=
  h.mono (List.append_subset.2 ⟨fun _ href => List.mem_append_left _ (hhosts href),
    List.subset_append_right _ _⟩) (List.Subset.refl _)

theorem more (h : n.Tethered left) (others : List Ref) : n.Tethered (others ++ left) := by
  refine Graph.Tethered.mono h (List.append_subset.2 ⟨List.subset_append_left _ _, ?_⟩)
    (List.Subset.refl _)
  exact fun ref href => List.mem_append_right _ (List.mem_append_right _ href)

theorem of_grows (h : n.Tethered left) (hgraph : n.graph.Grows n'.graph)
    (hchildren : n.children ⊆ n'.children) (hfollowers : n.followers ⊆ n'.followers) :
    n'.Tethered left := by
  refine of_hosts ((hgraph.tethered h).mono (List.Subset.refl _) hfollowers)
    (hosts_subset hchildren fun ref o ho => ?_)
  obtain ⟨o', ho', hc, _⟩ := hgraph.forth ref o ho
  exact ⟨o', ho', hc⟩

theorem of_leaves {g : Graph} (h : n.Tethered left) (hleaves : n.Leaves g n')
    (hgraph : n.graph.Grows g) : n'.Tethered left := by
  apply h.of_grows
  · rwa [hleaves.graph]
  · rw [hleaves.children]
    exact List.Subset.refl _
  · rw [hleaves.followers]
    exact List.Subset.refl _

theorem of_attached {start : Ref} (h : n.Tethered left)
    (hleaves : n.Leaves (n.graph.attached l start) n') (hl : l ∈ n.followers)
    (hstart : n.graph.Attachable (n.hosts ++ left) l start) : n'.Tethered left := by
  have hattached : n'.graph.Tethered (n.hosts ++ left) n'.followers := by
    rw [hleaves.graph, hleaves.followers]
    exact Graph.Tethered.attached h hl hstart
  refine of_hosts hattached (hosts_subset ?_ fun ref o ho => ?_)
  · rw [hleaves.children]
    exact List.Subset.refl _
  · obtain ⟨o', ho', hc, _⟩ := Graph.attached_forth l start ho
    exact ⟨o', hleaves.graph ▸ ho', hc⟩

theorem told_added {parent child : Ref} {ls : List ListenerId} (h : n.Tethered left)
    (hls : ∀ l ∈ ls, ∃ o, n.graph.get? parent = some o ∧ l ∈ o.listeners ∧ child ∈ o.children) :
    (ls.foldl (fun n l => n.onChildAdded l parent child) n).Tethered left := by
  induction ls generalizing n with
  | nil => exact h
  | cons l rest ih =>
    obtain ⟨o, ho, hl, hmem⟩ := hls l List.mem_cons_self
    have hleaves := leaves_onChildAdded n l ho child
    apply ih
    · exact h.of_attached hleaves (h.known parent o l ho hl) (.inr ⟨parent, o, ho, hl, hmem⟩)
    · intro l' hl'
      obtain ⟨p, hp, hlp, hmemp⟩ := hls l' (List.mem_cons_of_mem l hl')
      obtain ⟨p', hp', _, hlisteners, hchildren⟩ := Graph.attached_forth l child hp
      rw [hleaves.graph]
      exact ⟨p', hp', hlisteners hlp, hchildren ▸ hmemp⟩

theorem addChild (h : n.Tethered left) (parent child : Ref) :
    (n.addChild parent child).Tethered left := by
  have hadopted : (n.modifyObject parent (·.adopt child)).Tethered left :=
    h.of_leaves (leaves_withGraph ..) (.adopt n.graph parent child)
  unfold Node.addChild notify
  dsimp only
  split
  · rename_i o ho
    refine hadopted.told_added fun l hl => ⟨o, ho, hl, ?_⟩
    obtain ⟨x, _, ⟨_, rfl⟩ | ⟨hne, _⟩⟩ := Graph.of_modify ho
    · exact Graph.mem_adopt.2 (.inr rfl)
    · exact absurd rfl hne
  · exact hadopted

theorem removeChild (h : n.Tethered left) {parent : Ref} {id : RecordId}
    (hdistinct : ∀ child, (n.removeChild parent id).1 = some child →
      (n.graph.unlink parent id).DistinctBelow Entity.durable [child]) :
    (n.removeChild parent id).2.Tethered left := by
  unfold Node.removeChild at hdistinct ⊢
  split
  · exact h
  rename_i child hfound
  rw [hfound] at hdistinct
  obtain ⟨o, ho, hfind⟩ := Option.bind_eq_some_iff.1 hfound
  let cut := n.modifyObject parent fun o =>
    { o with children := o.children.eraseP (n.graph.hasId id) }
  have hcut : cut.graph.get? parent =
      some { o with children := o.children.eraseP (n.graph.hasId id) } := by
    show (n.graph.modify parent _).get? parent = _
    rw [Graph.get?_modify, if_pos rfl, ho]
    rfl
  have hnone : (n.graph.unlink parent id).Stripped child [] cut.graph := .nil _ child
  obtain ⟨g', hleaves, hstripped⟩ := hnone.told o.listeners hcut (hdistinct child rfl)
  show (cut.notify parent fun l n => n.onChildRemoved l parent child).Tethered left
  rw [notify, hcut]
  let after := o.listeners.foldl (fun n l => n.onChildRemoved l parent child) cut
  have hunlinked : after.graph.Tethered (n.hosts ++ left) after.followers := by
    rw [hleaves.graph, hleaves.followers]
    exact h.unlinked hstripped ho hfind
  refine of_hosts hunlinked (hosts_subset ?_ fun ref x hx => ?_)
  · rw [hleaves.children]
    exact List.Subset.refl _
  · obtain ⟨x', hx', hc⟩ : ∃ x', cut.graph.get? ref = some x' ∧ x'.category = x.category := by
      show ∃ x', (n.graph.modify parent _).get? ref = some x' ∧ _
      rw [Graph.get?_modify, hx]
      split
      · exact ⟨_, rfl, rfl⟩
      · exact ⟨x, rfl, rfl⟩
    obtain ⟨_, hget, _⟩ := hstripped.forth ref x' hx'
    rw [hleaves.graph]
    exact ⟨_, hget, hc⟩

theorem setAttribute (h : n.Tethered left) (object : Ref) (key : String) (value : Json.Value) :
    (n.setAttribute object key value).Tethered left :=
  h.of_leaves (leaves_setAttribute n object key value)
    (.modify n.graph object fun _ => by exact ⟨rfl, rfl, rfl, List.Subset.refl _⟩)

theorem told_hostAdded {host : Ref} {ls : List ListenerId} (h : n.Tethered left)
    (hmem : host ∈ n.children) (hls : ls ⊆ n.followers) :
    (ls.foldl (fun n l => n.onHostAdded l host) n).Tethered left := by
  induction ls generalizing n with
  | nil => exact h
  | cons l rest ih =>
    have hleaves := leaves_onHostAdded n l host
    apply ih
    · split at hleaves
      · rename_i hv
        exact h.of_attached hleaves (hls List.mem_cons_self)
          (.inl (List.mem_append_left _ (mem_hosts.2 ⟨hmem, hv⟩)))
      · exact h.of_leaves hleaves (.refl _)
    · rwa [hleaves.children]
    · rw [hleaves.followers]
      exact fun l' hl' => hls (List.mem_cons_of_mem l hl')

theorem addVirtualHost (h : n.Tethered left) (host : Ref) :
    (n.addVirtualHost host).Tethered left := by
  have hplaced : ({ n with children := n.children ++ [host] } : Node).Tethered left :=
    h.of_grows (.refl _) (List.subset_append_left _ _) (List.Subset.refl _)
  exact hplaced.told_hostAdded (List.mem_append_right _ (List.mem_singleton_self host))
    (List.Subset.refl _)

theorem told_hostRemoved {child : Ref} (ls : List ListenerId) (n : Node)
    (hv : n.graph.isVirtualHost child) :
    ∃ g, n.Leaves g (ls.foldl (fun n l => n.onHostRemoved l child) n) ∧
      (∀ ref, ref ≠ child → g.get? ref = n.graph.get? ref) ∧
      ∀ o', g.get? child = some o' → ∃ o, n.graph.get? child = some o ∧
        ∀ l ∈ o'.listeners, l ∈ o.listeners ∧ l ∉ ls := by
  induction ls generalizing n with
  | nil => exact ⟨n.graph, .refl n, fun _ _ => rfl, fun o ho => ⟨o, ho, fun l hl => ⟨hl, by simp⟩⟩⟩
  | cons l rest ih =>
    have hleaves := leaves_onHostRemoved n l child
    rw [if_pos hv] at hleaves
    have hv' : (n.onHostRemoved l child).graph.isVirtualHost child := by
      obtain ⟨o, ho, hc⟩ := Graph.isVirtualHost_iff.1 hv
      rw [hleaves.graph]
      refine Graph.isVirtualHost_iff.2 ⟨o.unlisten l, ?_, hc⟩
      rw [Graph.get?_modify, if_pos rfl, ho]
      rfl
    obtain ⟨g, hrest, hother, hchild⟩ := ih (n.onHostRemoved l child) hv'
    rw [hleaves.graph] at hother hchild
    refine ⟨g, hleaves.trans hrest, fun ref hne => ?_, fun o' ho' => ?_⟩
    · rw [hother ref hne, Graph.get?_modify, if_neg fun e => hne e.symm]
    · obtain ⟨x, hx, hlisteners⟩ := hchild o' ho'
      obtain ⟨o, ho, ⟨_, rfl⟩ | ⟨hne, _⟩⟩ := Graph.of_modify hx
      · refine ⟨o, ho, fun l' hl' => ?_⟩
        obtain ⟨hkept, hnot⟩ := hlisteners l' hl'
        obtain ⟨hold, hother⟩ := List.mem_filter.1 hkept
        refine ⟨hold, fun hmem => ?_⟩
        rcases List.mem_cons.1 hmem with rfl | hmem
        · exact of_decide_eq_true hother rfl
        · exact hnot hmem
      · exact absurd rfl hne

theorem told_removedHost {child : Ref} {rest : Node} (h : n.Tethered left)
    (hrest : ∃ children, rest = { n with children } ∧
      ∀ ref ∈ n.children, ref ≠ child → ref ∈ children)
    (hv : n.graph.isVirtualHost child) :
    (n.followers.foldl (fun n l => n.onHostRemoved l child) rest).Tethered
      (((n.graph.get? child).map Entity.children).getD [] ++ left) := by
  obtain ⟨children, rfl, hkept⟩ := hrest
  obtain ⟨g, hleaves, hsame, hchild⟩ := told_hostRemoved n.followers { n with children } hv
  rw [Node.Tethered, hosts, hleaves.children, hleaves.graph, hleaves.followers]
  refine Graph.Tethered.unheard child h ?_ ?_ ?_ ?_ ?_
  · exact fun ref o ho hne => (hsame ref hne).trans ho
  · exact fun ref o' ho' hne => (hsame ref hne).symm.trans ho'
  · intro o' ho'
    obtain ⟨o, ho, hlisteners⟩ := hchild o' ho'
    refine List.eq_nil_iff_forall_not_mem.2 fun l hl => ?_
    obtain ⟨hold, hnot⟩ := hlisteners l hl
    exact hnot (h.known child o l ho hold)
  · intro root hroot hne
    rcases List.mem_append.1 hroot with hroot | hroot
    · obtain ⟨hmem, hv'⟩ := mem_hosts.1 hroot
      refine List.mem_append_left _ (List.mem_filter.2 ⟨hkept root hmem hne, ?_⟩)
      rw [Graph.isVirtualHost, hsame root hne]
      exact hv'
    · exact List.mem_append_right _ (List.mem_append_right _ hroot)
  · intro o c ho hc
    refine List.mem_append_right _ (List.mem_append_left _ ?_)
    rw [ho]
    exact hc

/-- The children of a virtual host are abandoned when it is removed: only the host itself is
detached. -/
theorem removeVirtualHost (h : n.Tethered left) :
    n.removeVirtualHost.2.Tethered
      (((n.removeVirtualHost.1.bind n.graph.get?).map Entity.children).getD [] ++ left) := by
  unfold Node.removeVirtualHost
  split
  · exact h.more _
  rename_i host _
  split
  · exact h.more _
  rename_i child hfound
  let rest : Node := { n with children := n.children.eraseP (n.graph.hasId host.id) }
  have hkept : ∀ ref ∈ n.children, ref ≠ child → ref ∈ rest.children :=
    fun ref hmem hne => (Graph.mem_eraseP_or_eq hfound hmem).resolve_right hne
  show (n.followers.foldl (fun n l => n.onHostRemoved l child) rest).Tethered
    (((n.graph.get? child).map Entity.children).getD [] ++ left)
  by_cases hv : n.graph.isVirtualHost child
  · exact h.told_removedHost ⟨_, rfl, hkept⟩ hv
  · have hnothing : ∀ l, rest.onHostRemoved l child = rest := fun _ => if_neg hv
    have hstays : ∀ ls : List ListenerId,
        ls.foldl (fun n l => n.onHostRemoved l child) rest = rest := by
      intro ls
      induction ls with
      | nil => rfl
      | cons l tail ih => rw [List.foldl_cons, hnothing, ih]
    rw [hstays]
    refine Graph.Tethered.mono (h.more _) (List.append_subset.2 ⟨fun ref href => ?_,
      List.subset_append_right _ _⟩) (List.Subset.refl _)
    obtain ⟨hmem, hv'⟩ := mem_hosts.1 href
    refine List.mem_append_left _ (mem_hosts.2 ⟨hkept ref hmem ?_, hv'⟩)
    rintro rfl
    exact hv hv'

theorem listen (h : n.Tethered left) {failed : RecoveryError → Node → Prop} :
    Ends Recovery.listen n (fun _ n' => n'.Tethered left) failed := by
  let l := n.newListener.1
  let followed : Node := { n.newListener.2 with followers := n.followers ++ [l] }
  have hfollowed : followed.Tethered left :=
    h.of_grows (.refl n.graph) (List.Subset.refl _) (List.subset_append_left _ _)
  simp only [Recovery.listen, ends_bind, ends_get, ends_set]
  split
  · rename_i host hhost
    simp only [ends_bind, ends_set, NodeM.ends_report, ends_modify, Node.attach_eq]
    have hstart : followed.graph.Attachable (followed.hosts ++ left) l host :=
      .inl (List.mem_append_left _
        (mem_hosts.2 ⟨List.mem_of_find?_eq_some hhost, List.find?_some hhost⟩))
    exact hfollowed.of_attached ⟨_, _, _, rfl⟩
      (List.mem_append_right _ (List.mem_singleton_self l)) hstart
  · exact hfollowed

theorem rebuild (h : n.Tethered left) (records : List Record) (isNew : Bool) :
    Ends (Recovery.rebuild records isNew) n (fun _ n' => n'.Tethered (n.children ++ left))
      fun _ n' => n'.Tethered (n.children ++ left) := by
  have hbare : n.graph.Tethered (n.children ++ left) n.followers :=
    Graph.Tethered.mono h (List.append_subset.2 ⟨fun ref href =>
      List.mem_append_left _ (mem_hosts.1 href).1, List.subset_append_right _ _⟩)
      (List.Subset.refl _)
  have hany : ∀ {n' : Node}, n.graph.Grows n'.graph → n'.followers = n.followers →
      n'.Tethered (n.children ++ left) := by
    intro n' hgraph hfollowers
    rw [Node.Tethered, hfollowers]
    exact (hgraph.tethered hbare).mono (List.subset_append_right _ _) (List.Subset.refl _)
  simp only [Recovery.rebuild, ends_bind, ends_modify]
  split
  · exact hany (.refl n.graph) rfl
  · split
    · exact hany (.refl n.graph) rfl
    · rename_i root _
      exact hany (.plant n.graph root _) rfl

theorem recover (h : n.Tethered left) (hleaves : n.Leaves n.graph n') (records : List Record)
    (isNew : Bool) :
    Ends (Recovery.recover records isNew) n' (fun _ n' => n'.Tethered (n.children ++ left))
      fun _ n' => n'.Tethered (n.children ++ left) := by
  have hnow : n'.Tethered left := h.of_leaves hleaves (.refl _)
  have hreported : (n'.report (.recovering records.length isNew)).Tethered left := hnow
  have hrebuilt := hreported.rebuild records isNew
  rw [show (n'.report (.recovering records.length isNew)).children = n.children from
    hleaves.children] at hrebuilt
  rw [Recovery.recover]
  simp only [ends_bind, NodeM.ends_report]
  refine hrebuilt.imp fun _ built hbuilt => ?_
  refine hbuilt.listen.imp fun _ listening hlistening => ?_
  split
  · exact hlistening
  · exact hlistening

theorem upgradeAndRecover (h : n.Tethered left) (p : Upgrade.Plan) (initial : List Record) :
    Ends (Recovery.upgradeAndRecover p initial) n (fun _ n' => n'.Tethered (n.children ++ left))
      fun _ n' => n'.Tethered (n.children ++ left) := by
  simp only [Recovery.upgradeAndRecover, Recovery.openStore, ends_bind, NodeM.ends_onStore,
    Store.ends_openWith, ends_get, NodeM.ends_report, ends_pure]
  apply Recovery.ends_upgradeRecords
  · intro o events _
    cases hn : o.isNoop with
    | true =>
      simp only [Bool.not_true, Bool.false_eq_true, if_false, ends_bind, ends_pure]
      exact h.recover ⟨_, _, _, rfl⟩ _ _
    | false =>
      simp only [Bool.not_false, if_true, ends_bind, ends_pure, ends_get, NodeM.ends_report]
      apply (Recovery.ends_persist_eq rfl).mono
      · rintro _ n' rfl
        exact h.recover ⟨_, _, _, rfl⟩ _ _
      · exact fun _ _ h => h.elim
  · exact fun _ _ => h.more n.children

theorem reloadAndRecover (h : n.Tethered left) :
    Ends Recovery.reloadAndRecover n (fun _ n' => n'.Tethered (n.children ++ left))
      fun _ n' => n'.Tethered (n.children ++ left) := by
  simp only [Recovery.reloadAndRecover, ends_bind, NodeM.ends_onStore, Store.ends_reload]
  split
  · exact h.recover ⟨_, _, _, rfl⟩ _ _
  · exact h.more n.children

end Tethered

def abandons (n : Node) : Move → List Ref
  | .act .removeVirtualHost =>
    ((n.removeVirtualHost.1.bind n.graph.get?).map Entity.children).getD []
  | .act _ => []
  | .upgradeAndRecover _ | .reloadAndRecover => n.children

def abandoned (p : Upgrade.Plan) (n : Node) : List Move → List Ref
  | [] => []
  | m :: rest => (n.move p m).abandoned p rest ++ n.abandons m

def Orderly (n : Node) : Move → Prop
  | .act (.delete _) => False
  | .act (.removeChild parent id) => ∀ child, (n.removeChild parent id).1 = some child →
      (n.graph.unlink parent id).DistinctBelow Entity.durable [child]
  | _ => True

def OrderlyAll (p : Upgrade.Plan) (n : Node) : List Move → Prop
  | [] => True
  | m :: rest => n.Orderly m ∧ (n.move p m).OrderlyAll p rest

theorem orderly_removeChild (hids : n.graph.ids.Nodup) (parent : Ref) (id : RecordId) :
    n.Orderly (.act (.removeChild parent id)) := by
  intro child _
  refine .of_nodup ?_ _
  rwa [Graph.unlink, Graph.ids_modify fun _ => by rfl]

theorem after_of_ends {α : Type} {m : NodeM α} {holds : Node → Prop}
    (h : Ends m n (fun _ n' => holds n') fun _ n' => holds n') : holds (after m n) := by
  unfold Ends at h
  unfold after
  cases hm : m n with
  | ok a n' =>
    rw [hm] at h
    exact h
  | error e n' =>
    rw [hm] at h
    exact h

theorem Tethered.perform (h : n.Tethered left) {a : Action} (ha : n.Orderly (.act a)) :
    (n.perform a).Tethered (n.abandons (.act a) ++ left) := by
  cases a with
  | make record durable =>
    exact h.of_grows (.add n.graph rfl) (List.Subset.refl _) (List.Subset.refl _)
  | addChild parent child => exact h.addChild parent child
  | removeChild parent id => exact h.removeChild ha
  | setAttribute object key value => exact h.setAttribute object key value
  | delete object => exact ha.elim
  | addVirtualHost host => exact h.addVirtualHost host
  | removeVirtualHost => exact h.removeVirtualHost

theorem Tethered.move (p : Upgrade.Plan) (h : n.Tethered left) {m : Move} (hm : n.Orderly m) :
    (n.move p m).Tethered (n.abandons m ++ left) := by
  cases m with
  | act a => exact h.perform hm
  | upgradeAndRecover initial => exact after_of_ends (h.upgradeAndRecover p initial)
  | reloadAndRecover => exact after_of_ends h.reloadAndRecover

theorem Tethered.play (p : Upgrade.Plan) {moves : List Move} (h : n.Tethered left)
    (hmoves : n.OrderlyAll p moves) : (n.play p moves).Tethered (n.abandoned p moves ++ left) := by
  induction moves generalizing n left with
  | nil => exact h
  | cons m rest ih =>
    have hrest := ih (h.move p hmoves.1) hmoves.2
    rw [← List.append_assoc] at hrest
    exact hrest

theorem notify_silent {object : Ref} (h : ∀ o, n.graph.get? object = some o → o.listeners = [])
    (told : ListenerId → Node → Node) : n.notify object told = n := by
  unfold notify
  split
  · rename_i o ho
    rw [h o ho]
    rfl
  · rfl

theorem modified_silent {object : Ref} (h : ∀ o, n.graph.get? object = some o → o.listeners = [])
    {f : Entity → Entity} (hf : ∀ o, (f o).listeners = o.listeners)
    (told : ListenerId → Node → Node) :
    ((n.modifyObject object f).notify object told).store = n.store := by
  rw [notify_silent]
  · rfl
  · intro o' ho'
    obtain ⟨o, ho, ⟨_, rfl⟩ | ⟨_, rfl⟩⟩ := Graph.of_modify ho'
    · exact (hf o).trans (h o ho)
    · exact h o' ho

end Node

def Graph.Reaches (g : Graph) (a b : Ref) : Prop := g.Leads (fun _ => true) a b

theorem Graph.Leads.reaches {g : Graph} {descend : Entity → Bool} {a b : Ref}
    (h : g.Leads descend a b) : g.Reaches a b :=
  h.transfer fun _ o ho => ⟨o, ho, fun _ => ⟨rfl, List.Subset.refl _⟩⟩

namespace Node

/-- An object that neither a virtual host of the node nor an abandoned object leads to cannot write
to the store. -/
theorem play_silences_departed (p : Upgrade.Plan) (name : String) (store : Store)
    (moves : List Move) (h : (Node.new name store).OrderlyAll p moves) (object : Ref)
    (hcurrent : ∀ host ∈ ((Node.new name store).play p moves).hosts,
      ¬((Node.new name store).play p moves).graph.Reaches host object)
    (habandoned : ∀ root ∈ (Node.new name store).abandoned p moves,
      ¬((Node.new name store).play p moves).graph.Reaches root object) :
    let n := (Node.new name store).play p moves
    (∀ key value, (n.setAttribute object key value).store = n.store) ∧
      (n.delete object).store = n.store ∧ ∀ child, (n.addChild object child).store = n.store := by
  intro n
  have hstart : (Node.new name store).Tethered [] := .empty _ _
  have htethered : n.Tethered ((Node.new name store).abandoned p moves ++ []) := hstart.play p h
  rw [List.append_nil] at htethered
  have hunheard : ∀ o, n.graph.get? object = some o → o.listeners = [] := by
    intro o ho
    refine List.eq_nil_iff_forall_not_mem.2 fun l hl => ?_
    obtain ⟨root, hroot, hleads⟩ := htethered.led object o l ho hl
    rcases List.mem_append.1 hroot with hroot | hroot
    · exact hcurrent root hroot hleads.reaches
    · exact habandoned root hroot hleads.reaches
  refine ⟨fun key value => ?_, ?_, fun child => ?_⟩
  · exact modified_silent hunheard (fun _ => by rfl) _
  · exact congrArg Node.store (notify_silent hunheard _)
  · exact modified_silent hunheard (fun _ => by rfl) _

theorem play_silences_departed_current :
    let p := Upgrade.Plan.standard (.ofHost Sample.hostName)
    let start := Node.new Sample.hostName
      (.ofRecords (Sample.current fun n => ⟨BitVec.ofNat 128 (n + 1)⟩))
    let late := Sample.entity ⟨100⟩ Category.queue "late" ⟨1⟩
    let moves : List Move := [.upgradeAndRecover [], .act (.make late true),
      .act (.addChild ⟨0⟩ ⟨3⟩), .act (.removeChild ⟨0⟩ ⟨100⟩), .reloadAndRecover]
    let n := start.play p moves
    start.OrderlyAll p moves ∧ (∀ host ∈ n.hosts, ¬n.graph.Reaches host ⟨3⟩) ∧
      (∀ root ∈ start.abandoned p moves, ¬n.graph.Reaches root ⟨3⟩) ∧
      n.hosts ≠ [] ∧ start.abandoned p moves ≠ [] ∧
      (∀ key value, (n.setAttribute ⟨3⟩ key value).store = n.store) ∧
      (n.delete ⟨3⟩).store = n.store ∧ ∀ child, (n.addChild ⟨3⟩ child).store = n.store := by
  intro p start late moves n
  have horderly : start.OrderlyAll p moves :=
    ⟨trivial, trivial, trivial, orderly_removeChild (by decide +kernel) _ _, trivial, trivial⟩
  have hroots : n.hosts ≠ [] ∧ start.abandoned p moves ≠ [] ∧
      (∀ root ∈ n.hosts ++ start.abandoned p moves, root ≠ ⟨3⟩) ∧
      ∀ o ∈ n.graph.objects, (⟨3⟩ : Ref) ∉ o.children := by
    decide +kernel
  obtain ⟨hhosts, habandoned, hne, hparentless⟩ := hroots
  have hunreached : ∀ root ∈ n.hosts ++ start.abandoned p moves, ¬n.graph.Reaches root ⟨3⟩ := by
    intro root hroot hreaches
    rcases Graph.Leads.last_step hreaches with heq | ⟨parent, o, _, ho, hmem⟩
    · exact hne root hroot heq
    · exact hparentless o (Graph.mem_of_get? ho) hmem
  have hcurrent := fun host hhost => hunreached host (List.mem_append_left _ hhost)
  have hleft := fun root hroot => hunreached root (List.mem_append_right _ hroot)
  exact ⟨horderly, hcurrent, hleft, hhosts, habandoned,
    play_silences_departed p Sample.hostName _ moves horderly ⟨3⟩ hcurrent hleft⟩

/-- A queue goes on writing after its virtual host was removed. -/
theorem not_silenced_abandoned :
    let p := Upgrade.Plan.standard (.ofHost Sample.hostName)
    let start := Node.new Sample.hostName
      (.ofRecords (Sample.current fun n => ⟨BitVec.ofNat 128 (n + 1)⟩))
    let n := start.play p [.upgradeAndRecover [], .act .removeVirtualHost]
    n.children = [] ∧ (∀ host ∈ n.hosts, ¬n.graph.Reaches host ⟨1⟩) ∧
      (n.setAttribute ⟨1⟩ "description" (.text "late")).store.contents ≠ n.store.contents := by
  intro p start n
  have hgone : n.children = [] ∧
      (n.setAttribute ⟨1⟩ "description" (.text "late")).store.contents ≠ n.store.contents := by
    decide +kernel
  refine ⟨hgone.1, fun host hhost => ?_, hgone.2⟩
  rw [hosts, hgone.1] at hhost
  cases hhost

end Node

end BrokerConfig.Live
