import BrokerConfig.Proofs.Listening
import BrokerConfig.Proofs.WriteBack

namespace BrokerConfig.Live

namespace Graph

variable {g : Graph}

structure Family (g : Graph) (hosts : List Ref) : Prop where
  placed : ∀ ref ∈ hosts, ∃ o, g.get? ref = some o
  present : ∀ p o c, g.get? p = some o → c ∈ o.children → ∃ x, g.get? c = some x
  once : ∀ p o, g.get? p = some o → o.children.Nodup
  single : ∀ p q o x c, g.get? p = some o → g.get? q = some x → c ∈ o.children →
    c ∈ x.children → p = q
  apart : ∀ p o c, g.get? p = some o → c ∈ o.children → c ∉ hosts

structure Planted (g : Graph) (hosts : List Ref) (records : List Record) : Prop where
  distinct : g.ids.Nodup
  family : g.Family hosts
  stem : ∀ ref o, g.get? ref = some o →
    ∃ r ∈ records, o = { Entity.ofRecord r with children := o.children }

theorem Planted.empty (records : List Record) : empty.Planted [] records where
  distinct := List.nodup_nil
  family := ⟨by simp, by simp [get?, Graph.empty], by simp [get?, Graph.empty],
    by simp [get?, Graph.empty], by simp⟩
  stem := by simp [get?, Graph.empty]

theorem objects_addAll (os : List Entity) : (g.addAll os).2.objects = g.objects ++ os := by
  induction os generalizing g with
  | nil => exact (List.append_nil _).symm
  | cons o rest ih =>
    refine (ih (g := g.add o)).trans ?_
    rw [add, List.append_assoc, List.singleton_append]

theorem refs_addAll (os : List Entity) :
    (g.addAll os).1 = (List.range' g.objects.length os.length).map Ref.mk := by
  induction os generalizing g with
  | nil => rfl
  | cons o rest ih =>
    rw [List.length_cons, List.range'_succ, List.map_cons]
    refine congrArg (g.next :: ·) ((ih (g := g.add o)).trans ?_)
    rw [add, List.length_append, List.length_singleton]

def adoptEach (g : Graph) (parent : Ref → Ref) (refs : List Ref) : Graph :=
  refs.foldl (fun h ref => h.adopt (parent ref) ref) g

variable {parent : Ref → Ref}

theorem ids_adoptEach (refs : List Ref) : (g.adoptEach parent refs).ids = g.ids := by
  induction refs generalizing g with
  | nil => rfl
  | cons ref rest ih =>
    exact (ih (g := g.adopt (parent ref) ref)).trans (ids_modify (fun _ => by rfl) _)

theorem get?_adoptEach (refs : List Ref) (x : Ref) : (g.adoptEach parent refs).get? x =
    (g.get? x).map fun o => { o with children := o.children ++ refs.filter (parent · = x) } := by
  induction refs generalizing g with
  | nil =>
    cases h : g.get? x with
    | none => exact h
    | some o => simp [adoptEach, h]
  | cons ref rest ih =>
    refine (ih (g := g.adopt (parent ref) ref)).trans ?_
    rw [adopt, get?_modify]
    cases g.get? x with
    | none => simp
    | some o => by_cases hx : parent ref = x <;> simp [hx, Entity.adopt]

theorem get?_ofRecords {rs : List Record} {ref : Ref} {o : Entity}
    (h : (Graph.mk (rs.map .ofRecord)).get? ref = some o) : ∃ r ∈ rs, o = .ofRecord r := by
  obtain ⟨r, hr, heq⟩ := List.mem_map.1 (mem_of_get? h)
  exact ⟨r, hr, heq.symm⟩

theorem planted_adoptEach (root : Record) (others : List Record)
    (hids : ((root :: others).map Record.id).Nodup) :
    ((Graph.mk ((root :: others).map .ofRecord)).adoptEach parent
      ((List.range' 1 others.length).map Ref.mk)).Planted [⟨0⟩] (root :: others) := by
  generalize hrefs : (List.range' 1 others.length).map Ref.mk = refs
  generalize hgrown : Graph.mk ((root :: others).map .ofRecord) = grown
  have hcount : grown.objects.length = others.length + 1 := by simp [← hgrown]
  have hlisted : ∀ {c : Ref}, c ∈ refs → 1 ≤ c.index ∧ c.index < grown.objects.length := by
    rintro ⟨i⟩ hc
    rw [← hrefs] at hc
    simp only [List.mem_map, List.mem_range'_1, Ref.mk.injEq, exists_eq_right] at hc
    rw [hcount]
    exact ⟨hc.1, show i < others.length + 1 by omega⟩
  have hexists : ∀ {c : Ref}, c.index < grown.objects.length →
      ∃ x, (grown.adoptEach parent refs).get? c = some x := by
    intro c hc
    have hx : grown.get? c = some grown.objects[c.index] := List.getElem?_eq_getElem hc
    rw [get?_adoptEach, hx]
    exact ⟨_, rfl⟩
  have hget : ∀ {ref : Ref} {o : Entity}, (grown.adoptEach parent refs).get? ref = some o →
      ∃ r ∈ root :: others,
        o = { Entity.ofRecord r with children := refs.filter (parent · = ref) } := by
    intro ref o ho
    rw [get?_adoptEach] at ho
    obtain ⟨made, hmade, rfl⟩ := Option.map_eq_some_iff.1 ho
    rw [← hgrown] at hmade
    obtain ⟨r, hr, rfl⟩ := get?_ofRecords hmade
    exact ⟨r, hr, rfl⟩
  have hchildren : ∀ {ref : Ref} {o : Entity}, (grown.adoptEach parent refs).get? ref = some o →
      o.children = refs.filter (parent · = ref) := by
    intro ref o ho
    obtain ⟨_, _, rfl⟩ := hget ho
    rfl
  have hchild : ∀ {ref c : Ref} {o : Entity}, (grown.adoptEach parent refs).get? ref = some o →
      c ∈ o.children → c ∈ refs ∧ parent c = ref := by
    intro ref c o ho hc
    rw [hchildren ho, List.mem_filter, decide_eq_true_eq] at hc
    exact hc
  have hnodup : refs.Nodup := by
    rw [← hrefs]
    exact List.Nodup.map (fun _ _ h => Ref.mk.inj h) List.nodup_range'
  exact {
    distinct := by
      rw [ids_adoptEach, ← hgrown, ids, List.map_map]
      exact hids
    family := {
      placed := by
        intro ref href
        cases List.mem_singleton.1 href
        exact hexists (by rw [hcount]; exact Nat.succ_pos _)
      present := fun p o c ho hc => hexists (hlisted (hchild ho hc).1).2
      once := by
        intro p o ho
        rw [hchildren ho]
        exact hnodup.filter _
      single := fun p q o x c ho hx hc hd => (hchild ho hc).2.symm.trans (hchild hx hd).2
      apart := by
        intro p o c ho hc hhost
        cases List.mem_singleton.1 hhost
        exact absurd (hlisted (hchild ho hc).1).1 (by decide) }
    stem := by
      intro ref o ho
      obtain ⟨r, hr, rfl⟩ := hget ho
      exact ⟨r, hr, rfl⟩ }

theorem planted (root : Record) (others : List Record)
    (hids : ((root :: others).map Record.id).Nodup) :
    (Graph.empty.plant root others).2.Planted [(Graph.empty.plant root others).1]
      (root :: others) := by
  have hgrown : ((Graph.empty.add (.ofRecord root)).addAll (others.map .ofRecord)).2 =
      ⟨(root :: others).map .ofRecord⟩ :=
    congrArg Graph.mk (objects_addAll (g := Graph.empty.add (.ofRecord root)) _)
  have hrefs := refs_addAll (g := Graph.empty.add (.ofRecord root)) (others.map .ofRecord)
  rw [List.length_map] at hrefs
  rw [plant]
  dsimp only
  rw [hgrown, hrefs]
  exact planted_adoptEach root others hids

end Graph

def Node.Calm (n : Node) : Prop := ∀ e ∈ n.events, e.level ≠ .error

theorem Node.Calm.report {n : Node} (h : n.Calm) {e : Event} (he : e.level ≠ .error) :
    (n.report e).Calm := by
  intro e' he'
  rcases List.mem_append.1 he' with he' | he'
  · exact h e' he'
  · cases List.mem_singleton.1 he'
    exact he

theorem Node.calm_of_events {n : Node} {first : Event} {events : List Upgrade.Event}
    (h : n.events = first :: events.map .upgrade) (hf : first.level ≠ .error) : n.Calm := by
  intro e he
  rw [h] at he
  rcases List.mem_cons.1 he with rfl | he
  · exact hf
  · obtain ⟨reported, _, rfl⟩ := List.mem_map.1 he
    cases reported <;> rintro ⟨⟩

namespace Recovery

variable {n : Node}

structure Rebuilt (records : List Record) (l : ListenerId) (g : Graph) (n : Node) : Prop where
  planted : g.Planted n.children records
  graph : ∃ refs, n.graph = g.modifyEach refs (·.listenIfDurable l) ∧
    ∀ ref, ref ∈ refs ↔
      ∃ host ∈ n.children, g.isVirtualHost host ∧ g.Leads Entity.durable host ref
  followers : n.followers = [l]
  recovered : ∃ isNew, n.recovered = some ⟨records, isNew⟩

theorem ends_rebuild_planted {records : RecordSet} {isNew : Bool} (hg : n.graph = Graph.empty) :
    Ends (rebuild records.records isNew) n
      (fun _ n' => n'.graph.Planted n'.children records.records ∧
        (∀ host ∈ n'.children, n'.children = [host]) ∧
        n' = { n with
          recovered := some ⟨records.records, isNew⟩, graph := n'.graph, children := n'.children })
      fun _ _ => True := by
  simp only [rebuild, ends_bind, ends_modify]
  split
  · refine ⟨?_, by simp, rfl⟩
    rw [hg]
    exact .empty _
  · split
    · trivial
    · rename_i root hroot
      have hmem : root ∈ records.records := List.mem_of_find?_eq_some hroot
      have hids : ((root :: records.records.filter fun r => r.id ≠ root.id).map
          Record.id).Nodup := by
        rw [List.map_cons, List.nodup_cons]
        refine ⟨?_, records.distinct.sublist (List.filter_sublist.map _)⟩
        simp
      have hplanted := Graph.planted root _ hids
      refine ⟨⟨?_, ?_, ?_⟩, by simp, rfl⟩
      · rw [hg]
        exact hplanted.distinct
      · rw [hg]
        exact hplanted.family
      · rw [hg]
        intro ref o ho
        obtain ⟨r, hr, heq⟩ := hplanted.stem ref o ho
        refine ⟨r, ?_, heq⟩
        rcases List.mem_cons.1 hr with rfl | hr
        · exact hmem
        · exact (List.mem_filter.1 hr).1

theorem ends_listen_attached {failed : RecoveryError → Node → Prop} (hids : n.graph.ids.Nodup)
    (hone : ∀ host ∈ n.children, n.children = [host]) :
    Ends listen n
      (fun _ n' => ∃ l refs, (∀ ref, ref ∈ refs ↔ ∃ host ∈ n.children,
          n.graph.isVirtualHost host ∧ n.graph.Leads Entity.durable host ref) ∧
        n'.graph = n.graph.modifyEach refs (·.listenIfDurable l) ∧
        n'.children = n.children ∧ n'.followers = n.followers ++ [l] ∧ (n.Calm → n'.Calm))
      failed := by
  have hhost : ∀ host, n.virtualHost? = some host ↔
      host ∈ n.children ∧ n.graph.isVirtualHost host := by
    intro host
    constructor
    · exact fun hf => ⟨List.mem_of_find?_eq_some hf, List.find?_some hf⟩
    · rintro ⟨hmem, hv⟩
      rw [Node.virtualHost?, hone host hmem, List.find?_cons_of_pos hv]
  simp only [listen, ends_bind, ends_get, ends_set]
  split
  · rename_i host hv
    have hmem := (hhost host).1 hv
    simp only [ends_bind, ends_set, NodeM.ends_report, ends_modify, Node.attach_eq]
    refine ⟨n.newListener.1, n.graph.durableWalk host, ?_, rfl, rfl, rfl, fun hc => hc.report ?_⟩
    · intro ref
      rw [Graph.durableWalk, Graph.mem_walk hids]
      constructor
      · exact fun hl => ⟨host, hmem.1, hmem.2, hl⟩
      · rintro ⟨other, hother, hisHost, hl⟩
        cases hv.symm.trans ((hhost other).2 ⟨hother, hisHost⟩)
        exact hl
    · rintro ⟨⟩
  · rename_i hv
    refine ⟨n.newListener.1, [], ?_, rfl, rfl, rfl, fun hc => hc⟩
    intro ref
    constructor
    · rintro ⟨⟩
    · rintro ⟨host, hmem, hisHost, _⟩
      cases hv.symm.trans ((hhost host).2 ⟨hmem, hisHost⟩)

theorem ends_recover_rebuilt {records : RecordSet} {isNew : Bool} (hg : n.graph = Graph.empty)
    (hf : n.followers = []) :
    Ends (recover records.records isNew) n
      (fun _ n' => (∃ l g, Rebuilt records.records l g n') ∧ (n.Calm → n'.Calm))
      fun _ _ => True := by
  rw [recover]
  simp only [ends_bind, NodeM.ends_report]
  apply (@ends_rebuild_planted (n.report _) records isNew hg).imp
  rintro _ n' ⟨hplanted, hone, hn'⟩
  have hcalm : n.Calm → n'.Calm := by
    rw [hn']
    exact fun hc => hc.report (e := .recovering ..) (by rintro ⟨⟩)
  have hnone : n'.followers = [] := by
    rw [hn']
    exact hf
  have hrecovered : n'.recovered = some ⟨records.records, isNew⟩ := by rw [hn']
  have hframe : Ends listen n' (fun _ n'' => n''.store = n'.store ∧ n''.recovered = n'.recovered)
      fun _ _ => True := ends_listen
  have hlisten := @ends_listen_attached n' (fun _ _ => True) hplanted.distinct hone
  apply (hframe.and hlisten).mono
  · rintro _ n'' ⟨⟨_, hr⟩, l, refs, hrefs, hgraph, hchildren, hfollowers, hcalm'⟩
    have hrebuilt : Rebuilt records.records l n'.graph n'' := by
      refine ⟨?_, ⟨refs, hgraph, ?_⟩, ?_, isNew, hr.trans hrecovered⟩
      · rw [hchildren]
        exact hplanted
      · rw [hchildren]
        exact hrefs
      · rw [hfollowers, hnone]
        rfl
    obtain ⟨hp, hg, hfs, hrec⟩ := hrebuilt
    split
    · exact ⟨⟨l, n'.graph, hp, hg, hfs, hrec⟩, fun hc => hcalm' (hcalm hc)⟩
    · exact ⟨⟨l, n'.graph, hp, hg, hfs, hrec⟩, fun hc => hcalm' (hcalm hc)⟩
  · exact fun _ _ _ => trivial

structure Restored (records : RecordSet) (l : ListenerId) (g : Graph) (n : Node) : Prop extends
    Rebuilt records.records l g n where
  isOpen : n.store.isOpen
  agrees : ∀ id, n.store.contents.get? id = records.get? id
  calm : n.Calm

theorem ends_recover_restored {p : Upgrade.Plan} {s : RecordSet} {o : Upgrade.Outcome}
    {isNew : Bool} (ho : (Upgrade.ended (p.upgradeSet .acceptAll s .empty)).1 = .ok o)
    (hg : n.graph = Graph.empty) (hf : n.followers = []) (hopen : n.store.isOpen)
    (hn : n.store.contents = written s o.net) (hc : n.Calm) :
    Ends (recover o.records.records isNew) n (fun _ n' => ∃ l g, Restored o.records l g n')
      fun _ _ => True := by
  apply (ends_recover.and (ends_recover_rebuilt hg hf)).mono
  · rintro _ n' ⟨⟨hs, _⟩, ⟨l, g, hrebuilt⟩, hcalm⟩
    refine ⟨l, g, hrebuilt, ?_, ?_, hcalm hc⟩
    · rw [hs]
      exact hopen
    · intro id
      rw [hs, hn]
      exact (Upgrade.Plan.upgrade_accounts ho).get?_updates_first id
  · exact fun _ _ _ => trivial

theorem ends_upgradeAndRecover (p : Upgrade.Plan) (initial : List Record) (name : String)
    (store : Store) :
    Ends (upgradeAndRecover p initial) (Node.new name store)
      (fun _ n => ∃ records l g, Restored records l g n) fun _ _ => True := by
  simp only [upgradeAndRecover, openStore, ends_bind, NodeM.ends_onStore, Store.ends_openWith,
    ends_get, NodeM.ends_report, ends_pure]
  apply ends_upgradeRecords
  · intro o events ho
    have hu : (Upgrade.ended (p.upgradeSet .acceptAll (store.openedWith initial) .empty)).1 =
        .ok o := by
      rw [← RecordSet.ofList_records (store.openedWith initial)]
      exact ho
    cases hn : o.isNoop with
    | true =>
      simp only [Bool.not_true, Bool.false_eq_true, if_false, ends_bind, ends_pure]
      refine (ends_recover_restored hu rfl rfl rfl (written_noop hn _).symm ?_).imp ?_
      · exact Node.calm_of_events rfl (by rintro ⟨⟩)
      · exact fun _ n h => ⟨o.records, h⟩
    | false =>
      simp only [Bool.not_false, if_true, ends_bind, ends_pure, ends_get, NodeM.ends_report]
      apply (ends_persist_eq rfl).mono
      · rintro _ n' rfl
        refine (ends_recover_restored hu rfl rfl rfl rfl ?_).imp ?_
        · refine ((Node.calm_of_events rfl ?_).report ?_).report ?_ <;> rintro ⟨⟩
        · exact fun _ n h => ⟨o.records, h⟩
      · exact fun _ _ h => h.elim
  · exact fun _ _ => trivial

theorem ends_reloadAndRecover (name : String) (store : Store) :
    Ends reloadAndRecover (Node.new name store)
      (fun _ n => ∃ records l g, Rebuilt records l g n) fun _ _ => True := by
  simp only [reloadAndRecover, ends_bind, NodeM.ends_onStore, Store.ends_reload]
  split
  · apply (@ends_recover_rebuilt (Node.new name store) store.contents false rfl rfl).imp
    rintro _ n ⟨⟨l, g, h⟩, _⟩
    exact ⟨_, l, g, h⟩
  · trivial

end Recovery

end BrokerConfig.Live
