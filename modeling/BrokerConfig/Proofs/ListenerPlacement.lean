import BrokerConfig.Proofs.Rebuilding
import BrokerConfig.Sample

namespace BrokerConfig.Live

namespace Graph

variable {g g' : Graph} {hosts : List Ref} {parent child : Ref}

def Persistent (g : Graph) (hosts : List Ref) (ref : Ref) : Prop :=
  (∃ o, g.get? ref = some o ∧ o.durable) ∧
    ∃ host ∈ hosts, g.isVirtualHost host ∧ g.Leads Entity.durable host ref

theorem persistent_append {host ref : Ref} : g.Persistent (hosts ++ [host]) ref ↔
    g.Persistent hosts ref ∨ g.isVirtualHost host ∧ (∃ o, g.get? ref = some o ∧ o.durable) ∧
      g.Leads Entity.durable host ref := by
  constructor
  · rintro ⟨hd, other, hmem, hv, hl⟩
    rcases List.mem_append.1 hmem with hmem | hmem
    · exact .inl ⟨hd, other, hmem, hv, hl⟩
    · cases List.mem_singleton.1 hmem
      exact .inr ⟨hv, hd, hl⟩
  · rintro (⟨hd, other, hmem, hv, hl⟩ | ⟨hv, hd, hl⟩)
    · exact ⟨hd, other, List.mem_append_left _ hmem, hv, hl⟩
    · exact ⟨hd, host, List.mem_append_right _ (List.mem_singleton_self host), hv, hl⟩

def Alike (g g' : Graph) : Prop := ∀ ref,
  (g.get? ref).map (fun o => (o.category, o.durable, o.children)) =
    (g'.get? ref).map fun o => (o.category, o.durable, o.children)

theorem Alike.symm (h : g.Alike g') : g'.Alike g := fun ref => (h ref).symm

theorem Alike.get? (h : g.Alike g') {ref : Ref} {o : Entity} (ho : g.get? ref = some o) :
    ∃ o', g'.get? ref = some o' ∧ o'.category = o.category ∧ o'.durable = o.durable ∧
      o'.children = o.children := by
  have href := h ref
  rw [ho] at href
  obtain ⟨o', ho', heq⟩ := Option.map_eq_some_iff.1 href.symm
  simp only [Prod.mk.injEq] at heq
  exact ⟨o', ho', heq⟩

theorem Alike.leads (h : g.Alike g') {a b : Ref} (hl : g.Leads Entity.durable a b) :
    g'.Leads Entity.durable a b := by
  apply hl.mono
  intro ref o ho
  obtain ⟨o', ho', _, hd, hc⟩ := h.get? ho
  exact ⟨o', ho', fun hopens => hd ▸ hopens, hc ▸ List.Subset.refl _⟩

theorem isVirtualHost_iff {ref : Ref} :
    g.isVirtualHost ref ↔ ∃ o, g.get? ref = some o ∧ o.category = Category.virtualHost := by
  unfold isVirtualHost
  cases g.get? ref <;> simp [Entity.isVirtualHost]

theorem Alike.persistent (h : g.Alike g') {ref : Ref} (hp : g.Persistent hosts ref) :
    g'.Persistent hosts ref := by
  obtain ⟨⟨o, ho, hd⟩, host, hmem, hv, hl⟩ := hp
  obtain ⟨o', ho', _, hd', _⟩ := h.get? ho
  obtain ⟨p, hp, hc⟩ := isVirtualHost_iff.1 hv
  obtain ⟨p', hp', hc', _⟩ := h.get? hp
  have hv' : g'.isVirtualHost host := isVirtualHost_iff.2 ⟨p', hp', hc'.trans hc⟩
  exact ⟨⟨o', ho', hd'.trans hd⟩, host, hmem, hv', h.leads hl⟩

theorem Alike.persistent_iff (h : g.Alike g') {ref : Ref} :
    g'.Persistent hosts ref ↔ g.Persistent hosts ref :=
  ⟨h.symm.persistent, h.persistent⟩

theorem alike_modifyEach {f : Entity → Entity} (hf : ∀ o, f (f o) = f o)
    (hkeeps : ∀ o, (f o).category = o.category ∧ (f o).durable = o.durable ∧
      (f o).children = o.children) (refs : List Ref) : g.Alike (g.modifyEach refs f) := by
  intro ref
  rw [get?_modifyEach hf]
  split
  · cases g.get? ref with
    | none => rfl
    | some o =>
      obtain ⟨hc, hd, hch⟩ := hkeeps o
      simp [hc, hd, hch]
  · rfl

theorem mem_eraseP_of_find? {α : Type} {l : List α} {p : α → Bool} {a : α} (hn : l.Nodup)
    (hf : l.find? p = some a) (b : α) : b ∈ l.eraseP p ↔ b ∈ l ∧ b ≠ a := by
  obtain ⟨hp, before, after, rfl, hbefore⟩ := List.find?_eq_some_iff_append.1 hf
  have hpassed : ∀ x ∈ before, ¬p x = true := fun x hx => by simpa using hbefore x hx
  obtain ⟨_, hafter, hapart⟩ := List.nodup_append.1 hn
  have hfirst : a ∉ before := fun ha => hapart a ha a List.mem_cons_self rfl
  have hlast : a ∉ after := (List.nodup_cons.1 hafter).1
  rw [List.eraseP_append_right _ hpassed, List.eraseP_cons_of_pos hp, List.mem_append,
    List.mem_append, List.mem_cons]
  constructor
  · rintro (hb | hb)
    · exact ⟨.inl hb, fun e => hfirst (e ▸ hb)⟩
    · exact ⟨.inr (.inr hb), fun e => hlast (e ▸ hb)⟩
  · rintro ⟨hb | rfl | hb, hne⟩
    · exact .inl hb
    · exact absurd rfl hne
    · exact .inr hb

theorem Family.of_sublist (h : g.Family hosts)
    (hback : ∀ ref o', g'.get? ref = some o' →
      ∃ o, g.get? ref = some o ∧ o'.children.Sublist o.children)
    (hforth : ∀ ref o, g.get? ref = some o → ∃ o', g'.get? ref = some o') : g'.Family hosts where
  placed ref href := by
    obtain ⟨o, ho⟩ := h.placed ref href
    exact hforth ref o ho
  present p o' c ho' hc := by
    obtain ⟨o, ho, hsub⟩ := hback p o' ho'
    obtain ⟨x, hx⟩ := h.present p o c ho (hsub.subset hc)
    exact hforth c x hx
  once p o' ho' := by
    obtain ⟨o, ho, hsub⟩ := hback p o' ho'
    exact (h.once p o ho).sublist hsub
  single p q o' x' c ho' hx' hc hc' := by
    obtain ⟨o, ho, hsub⟩ := hback p o' ho'
    obtain ⟨x, hx, hsub'⟩ := hback q x' hx'
    exact h.single p q o x c ho hx (hsub.subset hc) (hsub'.subset hc')
  apart p o' c ho' hc := by
    obtain ⟨o, ho, hsub⟩ := hback p o' ho'
    exact h.apart p o c ho (hsub.subset hc)

theorem Family.alike (h : g.Family hosts) (hg : g.Alike g') : g'.Family hosts := by
  apply h.of_sublist
  · intro ref o' ho'
    obtain ⟨o, ho, _, _, hc⟩ := hg.symm.get? ho'
    exact ⟨o, ho, hc ▸ List.Sublist.refl _⟩
  · intro ref o ho
    obtain ⟨o', ho', _⟩ := hg.get? ho
    exact ⟨o', ho'⟩

structure Loose (g : Graph) (hosts : List Ref) (ref : Ref) : Prop where
  present : (g.get? ref).isSome
  hostless : ref ∉ hosts
  parentless : ∀ o ∈ g.objects, ref ∉ o.children

instance (g : Graph) (hosts : List Ref) (ref : Ref) : Decidable (g.Loose hosts ref) :=
  decidable_of_iff ((g.get? ref).isSome ∧ ref ∉ hosts ∧ ∀ o ∈ g.objects, ref ∉ o.children)
    ⟨fun h => ⟨h.1, h.2.1, h.2.2⟩, fun h => ⟨h.1, h.2, h.3⟩⟩

theorem mem_adopt {o : Entity} {c : Ref} :
    c ∈ (o.adopt child).children ↔ c ∈ o.children ∨ c = child := by
  simp [Entity.adopt]

theorem Family.adopt (h : g.Family hosts) (parent : Ref) (hc : g.Loose hosts child) :
    (g.adopt parent child).Family hosts := by
  have hforth : ∀ {ref o}, g.get? ref = some o →
      ∃ o', (g.adopt parent child).get? ref = some o' := exists_modify
  have hmem : ∀ {ref o' c}, (g.adopt parent child).get? ref = some o' → c ∈ o'.children →
      (∃ o, g.get? ref = some o ∧ c ∈ o.children) ∨ ref = parent ∧ c = child := by
    intro ref o' c ho' hmem
    obtain ⟨o, ho, ⟨rfl, rfl⟩ | ⟨_, rfl⟩⟩ := of_modify ho'
    · rcases mem_adopt.1 hmem with hmem | rfl
      · exact .inl ⟨o, ho, hmem⟩
      · exact .inr ⟨rfl, rfl⟩
    · exact .inl ⟨o', ho, hmem⟩
  have hloose : ∀ {ref o}, g.get? ref = some o → child ∉ o.children :=
    fun ho => hc.parentless _ (mem_of_get? ho)
  constructor
  · intro ref href
    obtain ⟨o, ho⟩ := h.placed ref href
    exact hforth ho
  · intro p o' c ho' hc'
    rcases hmem ho' hc' with ⟨o, ho, hmem⟩ | ⟨_, rfl⟩
    · obtain ⟨x, hx⟩ := h.present p o c ho hmem
      exact hforth hx
    · obtain ⟨x, hx⟩ := Option.isSome_iff_exists.1 hc.present
      exact hforth hx
  · intro p o' ho'
    obtain ⟨o, ho, ⟨_, rfl⟩ | ⟨_, rfl⟩⟩ := of_modify ho'
    · exact List.nodup_append.2 ⟨h.once p o ho, List.nodup_singleton _, by
        rintro c hc' _ hd rfl
        exact hloose ho (List.mem_singleton.1 hd ▸ hc')⟩
    · exact h.once p o' ho
  · intro p q o' x' c ho' hx' hc' hd'
    rcases hmem ho' hc' with ⟨o, ho, hmemo⟩ | ⟨rfl, rfl⟩
    · rcases hmem hx' hd' with ⟨x, hx, hmemx⟩ | ⟨rfl, rfl⟩
      · exact h.single p q o x c ho hx hmemo hmemx
      · exact (hloose ho hmemo).elim
    · rcases hmem hx' hd' with ⟨x, hx, hmemx⟩ | ⟨rfl, _⟩
      · exact (hloose hx hmemx).elim
      · rfl
  · intro p o' c ho' hc'
    rcases hmem ho' hc' with ⟨o, ho, hmemo⟩ | ⟨_, rfl⟩
    · exact h.apart p o c ho hmemo
    · exact hc.hostless

theorem Family.host (h : g.Family hosts) (hc : g.Loose hosts child) :
    g.Family (hosts ++ [child]) where
  placed ref href := by
    rcases List.mem_append.1 href with href | href
    · exact h.placed ref href
    · cases List.mem_singleton.1 href
      exact Option.isSome_iff_exists.1 hc.present
  present := h.present
  once := h.once
  single := h.single
  apart p o c ho hmem hhost := by
    rcases List.mem_append.1 hhost with hhost | hhost
    · exact h.apart p o c ho hmem hhost
    · cases List.mem_singleton.1 hhost
      exact hc.parentless o (mem_of_get? ho) hmem

theorem get?_next : g.get? g.next = none := List.getElem?_eq_none (Nat.le_refl _)

theorem ne_next {ref : Ref} {o : Entity} (ho : g.get? ref = some o) : ref ≠ g.next := by
  rintro rfl
  rw [get?_next] at ho
  cases ho

theorem Family.add (h : g.Family hosts) {o : Entity} (ho : o.children = []) :
    (g.add o).Family hosts := by
  have hforth : ∀ {ref p}, g.get? ref = some p → (g.add o).get? ref = some p := by
    intro ref p hp
    rw [get?_add, if_neg (ne_next hp)]
    exact hp
  have hback : ∀ {ref p c}, (g.add o).get? ref = some p → c ∈ p.children → g.get? ref = some p := by
    intro ref p c hp hc
    rw [get?_add] at hp
    split at hp
    · cases hp
      rw [ho] at hc
      cases hc
    · exact hp
  constructor
  · intro ref href
    obtain ⟨p, hp⟩ := h.placed ref href
    exact ⟨p, hforth hp⟩
  · intro p x c hx hc
    obtain ⟨y, hy⟩ := h.present p x c (hback hx hc) hc
    exact ⟨y, hforth hy⟩
  · intro p x hx
    rw [get?_add] at hx
    split at hx
    · cases hx
      rw [ho]
      exact List.nodup_nil
    · exact h.once p x hx
  · exact fun p q x y c hx hy hc hd => h.single p q x y c (hback hx hc) (hback hy hd) hc hd
  · exact fun p x c hx hc => h.apart p x c (hback hx hc) hc

theorem Family.persistent_add (h : g.Family hosts) {o : Entity} {ref : Ref} :
    (g.add o).Persistent hosts ref ↔ g.Persistent hosts ref := by
  have hforth : ∀ {ref p}, g.get? ref = some p → (g.add o).get? ref = some p := by
    intro ref p hp
    rw [get?_add, if_neg (ne_next hp)]
    exact hp
  -- none of the objects that were there leads to the new one
  have hback : ∀ {a b : Ref}, (∃ p, g.get? a = some p) → (g.add o).Leads Entity.durable a b →
      g.Leads Entity.durable a b := by
    intro a b ha hl
    induction hl with
    | here _ =>
      obtain ⟨p, hp⟩ := ha
      exact .here hp
    | down get opens mem _ ih =>
      obtain ⟨p, hp⟩ := ha
      cases get.symm.trans (hforth hp)
      exact .down hp opens mem (ih (h.present _ _ _ hp mem))
  constructor
  · rintro ⟨⟨p, hp, hd⟩, host, hmem, hv, hl⟩
    obtain ⟨x, hx⟩ := h.placed host hmem
    have hl := hback ⟨x, hx⟩ hl
    obtain ⟨y, hy⟩ := hl.exists_last
    cases hp.symm.trans (hforth hy)
    obtain ⟨z, hz, hcategory⟩ := isVirtualHost_iff.1 hv
    cases hz.symm.trans (hforth hx)
    exact ⟨⟨_, hy, hd⟩, host, hmem, isVirtualHost_iff.2 ⟨_, hx, hcategory⟩, hl⟩
  · rintro ⟨⟨p, hp, hd⟩, host, hmem, hv, hl⟩
    obtain ⟨z, hz, hcategory⟩ := isVirtualHost_iff.1 hv
    refine ⟨⟨p, hforth hp, hd⟩, host, hmem, isVirtualHost_iff.2 ⟨z, hforth hz, hcategory⟩, ?_⟩
    apply hl.mono
    exact fun ref x hx => ⟨x, hforth hx, fun hopens => hopens, List.Subset.refl _⟩

theorem Family.not_leads (h : g.Family hosts) {a b host : Ref} (ha : a ∉ hosts)
    (hparentless : ∀ p o, g.get? p = some o → a ∉ o.children) (hl : g.Leads Entity.durable a b)
    (hhost : host ∈ hosts) : ¬g.Leads Entity.durable host b := by
  refine hl.closed (fun b => ¬g.Leads Entity.durable host b) ?_ ?_
  · intro hback
    rcases hback.last_step with rfl | ⟨p, o, _, hp, hmem⟩
    · exact ha hhost
    · exact hparentless p o hp hmem
  · intro ref o c ho hc hno hback
    rcases hback.last_step with rfl | ⟨p, x, hlp, hp, hmem⟩
    · exact h.apart ref o host ho hc hhost
    · cases h.single p ref x o c hp ho hmem hc
      exact hno hlp

structure Linked (g g' : Graph) (parent child : Ref) : Prop where
  forth : ∀ ref o, g.get? ref = some o → ∃ o', g'.get? ref = some o' ∧
    o'.category = o.category ∧ o'.durable = o.durable ∧ o'.listeners = o.listeners ∧
    ∀ c, c ∈ o'.children ↔ c ∈ o.children ∨ ref = parent ∧ c = child
  back : ∀ ref o', g'.get? ref = some o' → ∃ o, g.get? ref = some o

namespace Linked

variable (h : g.Linked g' parent child)

include h

theorem leads {a b : Ref} (hl : g.Leads Entity.durable a b) : g'.Leads Entity.durable a b := by
  apply hl.mono
  intro ref o ho
  obtain ⟨o', ho', _, hd, _, hc⟩ := h.forth ref o ho
  exact ⟨o', ho', fun hopens => hd.trans hopens, fun c hmem => (hc c).2 (.inl hmem)⟩

theorem leads_iff {o : Entity} (ho : g.get? parent = some o) {a b : Ref} :
    g'.Leads Entity.durable a b ↔ g.Leads Entity.durable a b ∨
      o.durable ∧ g.Leads Entity.durable a parent ∧ g.Leads Entity.durable child b := by
  constructor
  · intro hl
    induction hl with
    | here get =>
      obtain ⟨p, hp⟩ := h.back _ _ get
      exact .inl (.here hp)
    | @down ref next last x' get opens mem _ ih =>
      obtain ⟨x, hx⟩ := h.back _ _ get
      obtain ⟨_, hx', _, hd, _, hchildren⟩ := h.forth _ _ hx
      cases get.symm.trans hx'
      have hopens : x.durable := hd ▸ opens
      rcases (hchildren next).1 mem with hmem | ⟨rfl, rfl⟩
      · rcases ih with hrest | ⟨hdurable, hto, hrest⟩
        · exact .inl (.down hx hopens hmem hrest)
        · exact .inr ⟨hdurable, .down hx hopens hmem hto, hrest⟩
      · cases ho.symm.trans hx
        rcases ih with hrest | ⟨_, _, hrest⟩
        · exact .inr ⟨hopens, .here ho, hrest⟩
        · exact .inr ⟨hopens, .here ho, hrest⟩
  · rintro (hl | ⟨hdurable, hto, hrest⟩)
    · exact h.leads hl
    · obtain ⟨o', ho', _, hd, _, hchildren⟩ := h.forth _ _ ho
      exact (h.leads hto).trans_child ho' (hd.trans hdurable) ((hchildren child).2 (.inr ⟨rfl, rfl⟩))
        (h.leads hrest)

theorem leads_child_iff {o : Entity} (ho : g.get? parent = some o) {ref : Ref} :
    g'.Leads Entity.durable child ref ↔ g.Leads Entity.durable child ref := by
  -- a path behind the new link need not take it again
  rw [h.leads_iff ho]
  exact or_iff_left_of_imp fun hrest => hrest.2.2

theorem durable_iff {ref : Ref} : (∃ x, g'.get? ref = some x ∧ x.durable) ↔
    ∃ x, g.get? ref = some x ∧ x.durable := by
  constructor
  · rintro ⟨x', hx', hd'⟩
    obtain ⟨x, hx⟩ := h.back ref x' hx'
    obtain ⟨_, hx'', _, hd, _⟩ := h.forth ref x hx
    cases hx'.symm.trans hx''
    exact ⟨x, hx, hd ▸ hd'⟩
  · rintro ⟨x, hx, hd⟩
    obtain ⟨x', hx', _, hd', _⟩ := h.forth ref x hx
    exact ⟨x', hx', hd'.trans hd⟩

theorem persistent_iff {o : Entity} (ho : g.get? parent = some o) {ref : Ref} :
    g'.Persistent hosts ref ↔ g.Persistent hosts ref ∨ g.Persistent hosts parent ∧
      (∃ x, g.get? ref = some x ∧ x.durable) ∧ g.Leads Entity.durable child ref := by
  have hhost : ∀ host, g'.isVirtualHost host ↔ g.isVirtualHost host := by
    intro host
    rw [isVirtualHost_iff, isVirtualHost_iff]
    constructor
    · rintro ⟨x', hx', hc'⟩
      obtain ⟨x, hx⟩ := h.back host x' hx'
      obtain ⟨_, hx'', hc, _⟩ := h.forth host x hx
      cases hx'.symm.trans hx''
      exact ⟨x, hx, hc ▸ hc'⟩
    · rintro ⟨x, hx, hc⟩
      obtain ⟨x', hx', hc', _⟩ := h.forth host x hx
      exact ⟨x', hx', hc'.trans hc⟩
  unfold Persistent
  simp only [h.durable_iff, hhost, h.leads_iff ho]
  constructor
  · rintro ⟨hd, host, hmem, hv, hl | ⟨hopens, hto, hl⟩⟩
    · exact .inl ⟨hd, host, hmem, hv, hl⟩
    · exact .inr ⟨⟨⟨o, ho, hopens⟩, host, hmem, hv, hto⟩, hd, hl⟩
  · rintro (⟨hd, host, hmem, hv, hl⟩ | ⟨⟨⟨x, hx, hopens⟩, host, hmem, hv, hto⟩, hd, hl⟩)
    · exact ⟨hd, host, hmem, hv, .inl hl⟩
    · cases ho.symm.trans hx
      exact ⟨hd, host, hmem, hv, .inr ⟨hopens, hto, hl⟩⟩

omit h in
theorem adopt (g : Graph) (parent child : Ref) : g.Linked (g.adopt parent child) parent child where
  forth ref o ho := by
    rw [Graph.adopt, get?_modify, ho]
    split
    · rename_i heq
      subst heq
      exact ⟨_, rfl, rfl, rfl, rfl, fun c => by simp [mem_adopt]⟩
    · rename_i hne
      refine ⟨_, rfl, rfl, rfl, rfl, fun c => ?_⟩
      simp [Ne.symm hne]
  back ref o' ho' := by
    obtain ⟨o, ho, _⟩ := of_modify ho'
    exact ⟨o, ho⟩

end Linked

def unlink (g : Graph) (parent : Ref) (id : RecordId) : Graph :=
  g.modify parent fun o => { o with children := o.children.eraseP (g.hasId id) }

namespace Family

variable {o : Entity} {id : RecordId}

theorem unlink (h : g.Family hosts) (parent : Ref) (id : RecordId) :
    (g.unlink parent id).Family hosts := by
  apply h.of_sublist
  · intro ref o' ho'
    obtain ⟨o, ho, ⟨_, rfl⟩ | ⟨_, rfl⟩⟩ := of_modify ho'
    · exact ⟨o, ho, List.eraseP_sublist⟩
    · exact ⟨o', ho, List.Sublist.refl _⟩
  · exact fun _ _ => exists_modify

theorem linked_unlink (h : g.Family hosts) (ho : g.get? parent = some o)
    (hf : o.children.find? (g.hasId id) = some child) :
    (g.unlink parent id).Linked g parent child where
  forth ref x' hx' := by
    obtain ⟨x, hx, ⟨rfl, rfl⟩ | ⟨hne, rfl⟩⟩ := of_modify hx'
    · cases ho.symm.trans hx
      refine ⟨o, ho, rfl, rfl, rfl, fun c => ?_⟩
      rw [mem_eraseP_of_find? (h.once ref o ho) hf]
      by_cases hc : c = child
      · simp [hc, List.mem_of_find?_eq_some hf]
      · simp [hc]
    · exact ⟨x', hx, rfl, rfl, rfl, fun c => by simp [hne]⟩
  back _ _ := exists_modify

theorem parentless_unlink (h : g.Family hosts) (ho : g.get? parent = some o)
    (hf : o.children.find? (g.hasId id) = some child) (p : Ref) (x' : Entity)
    (hx' : (g.unlink parent id).get? p = some x') : child ∉ x'.children := by
  intro hc
  obtain ⟨x, hx, ⟨rfl, rfl⟩ | ⟨hne, rfl⟩⟩ := of_modify hx'
  · cases ho.symm.trans hx
    exact ((mem_eraseP_of_find? (h.once p o ho) hf child).1 hc).2 rfl
  · exact hne (h.single p parent x' o child hx ho hc (List.mem_of_find?_eq_some hf))

theorem persistent_unlink (h : g.Family hosts) (ho : g.get? parent = some o)
    (hf : o.children.find? (g.hasId id) = some child) {ref : Ref} :
    (g.unlink parent id).Persistent hosts ref ↔
      g.Persistent hosts ref ∧ ¬(g.unlink parent id).Leads Entity.durable child ref := by
  obtain ⟨_, hrest⟩ := (h.linked_unlink ho hf).back parent o ho
  rw [(h.linked_unlink ho hf).persistent_iff hrest]
  constructor
  · -- a host that leads below the child would have to pass through it
    rintro ⟨hd, host, hhost, hv, hto⟩
    have hapart := h.apart parent o child ho (List.mem_of_find?_eq_some hf)
    exact ⟨.inl ⟨hd, host, hhost, hv, hto⟩, fun hbelow =>
      (h.unlink parent id).not_leads hapart (h.parentless_unlink ho hf) hbelow hhost hto⟩
  · rintro ⟨hp | ⟨_, _, hbelow⟩, hno⟩
    · exact hp
    · exact absurd hbelow hno

end Family

def Placed (g : Graph) (l : ListenerId) (on : Ref → Prop) : Prop := ∀ ref o, g.get? ref = some o →
  on ref ∧ o.listeners = [l] ∨ ¬on ref ∧ o.listeners = []

namespace Placed

variable {l : ListenerId} {on on' : Ref → Prop} {start : Ref}

theorem listeners (h : g.Placed l on) {ref : Ref} {o : Entity} (ho : g.get? ref = some o) :
    o.listeners = [] ∨ o.listeners = [l] :=
  (h ref o ho).symm.imp And.right And.right

theorem congr (h : g.Placed l on) (hon : ∀ ref, on' ref ↔ on ref) : g.Placed l on' := by
  intro ref o ho
  rw [hon]
  exact h ref o ho

theorem modify (h : g.Placed l on) {f : Entity → Entity} (hf : ∀ o, (f o).listeners = o.listeners)
    (j : Ref) : (g.modify j f).Placed l on := by
  intro ref o' ho'
  obtain ⟨o, ho, ⟨_, rfl⟩ | ⟨_, rfl⟩⟩ := of_modify ho'
  · rw [hf]
    exact h ref o ho
  · exact h ref o' ho

theorem notify {n : Node} (h : n.graph.Placed l on) {ref : Ref} {o : Entity}
    (ho : n.graph.get? ref = some o) (told : ListenerId → Node → Node) :
    on ref ∧ n.notify ref told = told l n ∨ ¬on ref ∧ n.notify ref told = n := by
  rw [Node.notify, ho]
  dsimp only
  rcases h ref o ho with ⟨hon, hl⟩ | ⟨hoff, hl⟩
  · exact .inl ⟨hon, by rw [hl]; rfl⟩
  · exact .inr ⟨hoff, by rw [hl]; rfl⟩

theorem listened (h : g.Placed l on) {refs : List Ref}
    (hon : ∀ ref, on' ref ↔ on ref ∨ (∃ o, g.get? ref = some o ∧ o.durable) ∧ ref ∈ refs) :
    (g.modifyEach refs (·.listenIfDurable l)).Placed l on' := by
  intro ref o' ho'
  rw [get?_modifyEach fun o => o.listenIfDurable_listenIfDurable l] at ho'
  split at ho'
  · rename_i hmem
    obtain ⟨o, ho, rfl⟩ := Option.map_eq_some_iff.1 ho'
    by_cases hd : o.durable
    · rw [Entity.listenIfDurable, if_pos hd]
      exact .inl ⟨(hon ref).2 (.inr ⟨⟨o, ho, hd⟩, hmem⟩), o.listen_listeners l (h.listeners ho)⟩
    · have hsame : on' ref ↔ on ref := by
        rw [hon]
        refine or_iff_left ?_
        rintro ⟨⟨p, hp, hd'⟩, _⟩
        cases ho.symm.trans hp
        exact hd hd'
      rw [Entity.listenIfDurable, if_neg hd, hsame]
      exact h ref o ho
  · rename_i hmem
    have hsame : on' ref ↔ on ref := by
      rw [hon]
      exact or_iff_left fun hlisted => hmem hlisted.2
    rw [hsame]
    exact h ref o' ho'

theorem unlistened (h : g.Placed l on) {refs : List Ref}
    (hon : ∀ ref, on' ref ↔ on ref ∧ ref ∉ refs) :
    (g.modifyEach refs (·.unlisten l)).Placed l on' := by
  intro ref o' ho'
  rw [get?_modifyEach fun o => o.unlisten_unlisten l] at ho'
  split at ho'
  · rename_i hmem
    obtain ⟨o, ho, rfl⟩ := Option.map_eq_some_iff.1 ho'
    exact .inr ⟨fun hon' => ((hon ref).1 hon').2 hmem, o.unlisten_listeners l (h.listeners ho)⟩
  · rename_i hmem
    have hsame : on' ref ↔ on ref := by
      rw [hon]
      exact and_iff_left hmem
    rw [hsame]
    exact h ref o' ho'

end Placed

theorem alike_listened (g : Graph) (l : ListenerId) (refs : List Ref) :
    g.Alike (g.modifyEach refs (·.listenIfDurable l)) := by
  apply alike_modifyEach fun o => o.listenIfDurable_listenIfDurable l
  intro o
  exact ⟨o.listenIfDurable_field l Entity.category fun _ => rfl,
    o.listenIfDurable_field l Entity.durable fun _ => rfl,
    o.listenIfDurable_field l Entity.children fun _ => rfl⟩

theorem alike_unlistened (g : Graph) (l : ListenerId) (refs : List Ref) :
    g.Alike (g.modifyEach refs (·.unlisten l)) :=
  alike_modifyEach (fun o => o.unlisten_unlisten l) (fun _ => by exact ⟨rfl, rfl, rfl⟩) _

end Graph

structure Placement (l : ListenerId) (n : Node) : Prop where
  distinct : n.graph.ids.Nodup
  followers : n.followers = [l]
  family : n.graph.Family n.children
  placed : n.graph.Placed l (n.graph.Persistent n.children)

namespace Placement

variable {l : ListenerId} {n n' : Node} {g : Graph} {on : Ref → Prop} {start : Ref}

theorem of_listened {refs : List Ref} (hgraph : n'.graph = g.modifyEach refs (·.listenIfDurable l))
    (hfollowers : n'.followers = [l]) (hids : g.ids.Nodup) (hfamily : g.Family n'.children)
    (hplaced : g.Placed l on)
    (hon : ∀ ref, g.Persistent n'.children ref ↔
      on ref ∨ (∃ o, g.get? ref = some o ∧ o.durable) ∧ ref ∈ refs) : Placement l n' where
  distinct := by rwa [hgraph, Graph.ids_listened]
  followers := hfollowers
  family := hgraph ▸ hfamily.alike (g.alike_listened l refs)
  placed := by
    rw [hgraph]
    apply hplaced.listened
    intro ref
    rw [(g.alike_listened l refs).persistent_iff, hon]

theorem of_attached (hgraph : n'.graph = g.attached l start) (hfollowers : n'.followers = [l])
    (hids : g.ids.Nodup) (hfamily : g.Family n'.children) (hplaced : g.Placed l on)
    (hon : ∀ ref, g.Persistent n'.children ref ↔ on ref ∨
      (∃ o, g.get? ref = some o ∧ o.durable) ∧ g.Leads Entity.durable start ref) :
    Placement l n' := by
  apply of_listened hgraph hfollowers hids hfamily hplaced
  intro ref
  rw [hon, Graph.durableWalk, Graph.mem_walk hids]

theorem of_detached (hgraph : n'.graph = g.detached l start) (hfollowers : n'.followers = [l])
    (hids : g.ids.Nodup) (hfamily : g.Family n'.children) (hplaced : g.Placed l on)
    (hon : ∀ ref, g.Persistent n'.children ref ↔ on ref ∧ ¬g.Leads Entity.durable start ref) :
    Placement l n' where
  distinct := by rwa [hgraph, Graph.ids_detached]
  followers := hfollowers
  family := hgraph ▸ hfamily.alike (g.alike_unlistened l _)
  placed := by
    rw [hgraph]
    apply hplaced.unlistened
    intro ref
    rw [Graph.durableWalk, Graph.mem_walk hids]
    exact (g.alike_unlistened l _).persistent_iff.trans (hon ref)

theorem addChild (h : Placement l n) (parent : Ref) {child : Ref}
    (hc : n.graph.Loose n.children child) : Placement l (n.addChild parent child) := by
  cases ho : n.graph.get? parent with
  | none =>
    rw [Node.addChild, Node.modifyObject, Graph.modify_of_none _ ho, Node.notify, ho]
    exact h
  | some o =>
    let linked := n.modifyObject parent (·.adopt child)
    have hlinked : n.graph.Linked linked.graph parent child := .adopt n.graph parent child
    have hids : linked.graph.ids.Nodup := by
      show (n.graph.modify parent _).ids.Nodup
      rw [Graph.ids_modify fun _ => by rfl]
      exact h.distinct
    have hfamily : linked.graph.Family n.children := h.family.adopt parent hc
    have hplaced : linked.graph.Placed l (n.graph.Persistent n.children) :=
      h.placed.modify (fun _ => by rfl) parent
    obtain ⟨o', hget, _⟩ := hlinked.forth parent o ho
    show Placement l (linked.notify parent fun l n => n.onChildAdded l parent child)
    rcases hplaced.notify hget fun l n => n.onChildAdded l parent child with
      ⟨hon, hn⟩ | ⟨hoff, hn⟩
    · rw [hn]
      have hleaves := Node.leaves_onChildAdded linked l hget child
      have hchildren : (linked.onChildAdded l parent child).children = n.children :=
        hleaves.children
      refine of_attached hleaves.graph (hleaves.followers.trans h.followers) hids
        (hchildren ▸ hfamily) hplaced fun ref => ?_
      rw [hchildren, hlinked.durable_iff, hlinked.leads_child_iff ho, hlinked.persistent_iff ho]
      exact or_congr_right (and_iff_right hon)
    · rw [hn]
      refine ⟨hids, h.followers, hfamily, hplaced.congr fun ref => ?_⟩
      show linked.graph.Persistent n.children ref ↔ _
      rw [hlinked.persistent_iff ho]
      exact or_iff_left fun hpath => hoff hpath.1

theorem removeChild (h : Placement l n) (parent : Ref) (id : RecordId) :
    Placement l (n.removeChild parent id).2 := by
  unfold Node.removeChild
  split
  · exact h
  rename_i child hfound
  obtain ⟨o, ho, hfind⟩ := Option.bind_eq_some_iff.1 hfound
  let rest := n.modifyObject parent fun o =>
    { o with children := o.children.eraseP (n.graph.hasId id) }
  have hlinked : rest.graph.Linked n.graph parent child := h.family.linked_unlink ho hfind
  have hids : rest.graph.ids.Nodup := by
    show (n.graph.modify parent _).ids.Nodup
    rw [Graph.ids_modify fun _ => by rfl]
    exact h.distinct
  have hfamily : rest.graph.Family n.children := h.family.unlink parent id
  have hplaced : rest.graph.Placed l (n.graph.Persistent n.children) :=
    h.placed.modify (fun _ => by rfl) parent
  obtain ⟨o', hget⟩ := hlinked.back parent o ho
  show Placement l (rest.notify parent fun l n => n.onChildRemoved l parent child)
  rcases hplaced.notify hget fun l n => n.onChildRemoved l parent child with
    ⟨hon, hn⟩ | ⟨hoff, hn⟩
  · rw [hn]
    have hleaves := Node.leaves_onChildRemoved rest l hget child
    have hchildren : (rest.onChildRemoved l parent child).children = n.children :=
      hleaves.children
    refine of_detached hleaves.graph (hleaves.followers.trans h.followers) hids
      (hchildren ▸ hfamily) hplaced fun ref => ?_
    rw [hchildren]
    exact h.family.persistent_unlink ho hfind
  · rw [hn]
    refine ⟨hids, h.followers, hfamily, hplaced.congr fun ref => ?_⟩
    show rest.graph.Persistent n.children ref ↔ _
    rw [hlinked.persistent_iff hget]
    refine (or_iff_left fun hpath => hoff ?_).symm
    exact (hlinked.persistent_iff hget).2 (.inl hpath.1)

theorem addVirtualHost (h : Placement l n) {host : Ref} (hc : n.graph.Loose n.children host) :
    Placement l (n.addVirtualHost host) := by
  let placed : Node := { n with children := n.children ++ [host] }
  have hfamily := h.family.host hc
  have hleaves := Node.leaves_onHostAdded placed l host
  have hchildren : (placed.onHostAdded l host).children = n.children ++ [host] := hleaves.children
  have hfollowers := hleaves.followers.trans h.followers
  show Placement l (placed.followers.foldl (fun n l => n.onHostAdded l host) placed)
  rw [show placed.followers = [l] from h.followers, List.foldl_cons, List.foldl_nil]
  by_cases hv : n.graph.isVirtualHost host
  · rw [show placed.graph = n.graph from rfl, if_pos hv] at hleaves
    refine of_attached hleaves.graph hfollowers h.distinct (hchildren ▸ hfamily) h.placed
      fun ref => ?_
    rw [hchildren, Graph.persistent_append]
    exact or_congr_right (and_iff_right hv)
  · rw [show placed.graph = n.graph from rfl, if_neg hv] at hleaves
    refine ⟨?_, hfollowers, ?_, ?_⟩
    · rw [hleaves.graph]
      exact h.distinct
    · rw [hleaves.graph, hchildren]
      exact hfamily
    · rw [hleaves.graph, hchildren]
      apply h.placed.congr
      intro ref
      rw [Graph.persistent_append]
      exact or_iff_left fun hhost => hv hhost.1

theorem make (h : Placement l n) (r : Record) (durable : Bool)
    (hids : (n.make (.made r durable)).2.graph.ids.Nodup) :
    Placement l (n.make (.made r durable)).2 where
  distinct := hids
  followers := h.followers
  family := h.family.add rfl
  placed := by
    have hplaced : (n.graph.add (.made r durable)).Placed l (n.graph.Persistent n.children) := by
      intro ref o ho
      rw [Graph.get?_add] at ho
      split at ho
      · rename_i hnext
        cases ho
        refine .inr ⟨?_, rfl⟩
        rintro ⟨⟨p, hp, _⟩, _⟩
        exact Graph.ne_next hp hnext
      · exact h.placed ref o ho
    exact hplaced.congr fun ref => h.family.persistent_add

theorem setAttribute (h : Placement l n) (object : Ref) (key : String) (value : Json.Value) :
    Placement l (n.setAttribute object key value) := by
  have hleaves := Node.leaves_setAttribute n object key value
  have halike : n.graph.Alike (n.graph.modify object (·.withAttribute key value)) := by
    intro ref
    rw [Graph.get?_modify]
    split
    · cases n.graph.get? ref <;> rfl
    · rfl
  refine ⟨?_, hleaves.followers.trans h.followers, ?_, ?_⟩
  · rw [hleaves.graph, Graph.ids_modify (fun _ => by rfl)]
    exact h.distinct
  · rw [hleaves.graph, hleaves.children]
    exact h.family.alike halike
  · rw [hleaves.graph, hleaves.children]
    exact (h.placed.congr fun ref => halike.persistent_iff).modify (fun _ => by rfl) object

theorem of_rebuilt {records : List Record} (h : Recovery.Rebuilt records l g n) : Placement l n := by
  obtain ⟨refs, hgraph, hrefs⟩ := h.graph
  have hunlistened : g.Placed l fun _ => False := by
    intro ref o ho
    obtain ⟨r, _, heq⟩ := h.planted.stem ref o ho
    exact .inr ⟨not_false, by rw [heq]; rfl⟩
  apply of_listened hgraph h.followers h.planted.distinct h.planted.family hunlistened
  intro ref
  rw [hrefs, false_or]
  rfl

end Placement

namespace Node

def Permits (n : Node) : Action → Prop
  | .make .. | .setAttribute .. | .removeChild .. => True
  | .addChild _ child | .addVirtualHost child => n.graph.Loose n.children child
  | .delete _ | .removeVirtualHost => False

def PermitsAll (n : Node) : List Action → Prop
  | [] => True
  | a :: rest => n.Permits a ∧ (n.perform a).PermitsAll rest

instance (n : Node) : (a : Action) → Decidable (n.Permits a)
  | .make .. | .setAttribute .. | .removeChild .. => .isTrue trivial
  | .addChild _ child | .addVirtualHost child =>
    inferInstanceAs (Decidable (n.graph.Loose n.children child))
  | .delete _ | .removeVirtualHost => .isFalse not_false

instance decidablePermitsAll (n : Node) : (actions : List Action) → Decidable (n.PermitsAll actions)
  | [] => .isTrue trivial
  | a :: rest =>
    have := decidablePermitsAll (n.perform a) rest
    inferInstanceAs (Decidable (n.Permits a ∧ (n.perform a).PermitsAll rest))

end Node

namespace Placement

variable {l : ListenerId} {n : Node}

theorem perform (h : Placement l n) {a : Action} (ha : n.Permits a)
    (hids : (n.perform a).graph.ids.Nodup) : Placement l (n.perform a) := by
  cases a with
  | make r durable => exact h.make r durable hids
  | addChild parent child => exact h.addChild parent ha
  | removeChild parent id => exact h.removeChild parent id
  | setAttribute object key value => exact h.setAttribute object key value
  | addVirtualHost host => exact h.addVirtualHost ha
  | delete object => exact ha.elim
  | removeVirtualHost => exact ha.elim

theorem run (h : Placement l n) {actions : List Action} (ha : n.PermitsAll actions)
    (hids : (n.run actions).graph.ids.Nodup) : Placement l (n.run actions) := by
  induction actions generalizing n with
  | nil => exact h
  | cons a rest ih =>
    have hnow := hids.sublist (Node.ids_run (n.perform a) rest).sublist
    exact ih (h.perform ha.1 hnow) ha.2 hids

end Placement

namespace Recovery

/-- After a recovery, the store listener is on the durable objects that the virtual hosts of the
node reach through durable ones, once on each, whatever is added, removed or changed. -/
theorem run_listens (p : Upgrade.Plan) (initial : List Record) (name : String) (store : Store)
    {n : Node}
    (h : (∃ isNew, upgradeAndRecover p initial (Node.new name store) = .ok isNew n) ∨
      reloadAndRecover (Node.new name store) = .ok () n)
    (actions : List Action) (ha : n.PermitsAll actions) (hids : (n.run actions).graph.ids.Nodup) :
    ∃ l, n.followers = [l] ∧ ∀ ref o, (n.run actions).graph.get? ref = some o →
      (l ∈ o.listeners ↔ (n.run actions).graph.Persistent (n.run actions).children ref) ∧
        o.listeners.count l ≤ 1 := by
  have hrebuilt : ∃ records l g, Rebuilt records l g n := by
    rcases h with ⟨isNew, h⟩ | h
    · obtain ⟨records, l, g, hrestored⟩ :=
        (ends_of_ok h).1 (ends_upgradeAndRecover p initial name store)
      exact ⟨records.records, l, g, hrestored.toRebuilt⟩
    · exact (ends_of_ok h).1 (ends_reloadAndRecover name store)
  obtain ⟨records, l, g, hrebuilt⟩ := hrebuilt
  refine ⟨l, hrebuilt.followers, fun ref o ho => ?_⟩
  have hrun := (Placement.of_rebuilt hrebuilt).run ha hids
  rcases hrun.placed ref o ho with ⟨hon, hl⟩ | ⟨hoff, hl⟩
  · simp [hl, hon]
  · simp [hl, hoff]

theorem run_listens_legacy :
    let p := Upgrade.Plan.standard (.ofHost Sample.hostName)
    let initial := Sample.legacy fun n => ⟨BitVec.ofNat 128 (n + 1)⟩
    let late := Sample.entity ⟨100⟩ Category.queue "late" ⟨1⟩
    let transient := Sample.entity ⟨101⟩ Category.queue "transient" ⟨1⟩
    let actions : List Action := [.make late true, .make transient false, .addChild ⟨8⟩ ⟨9⟩,
      .addChild ⟨0⟩ ⟨8⟩, .removeChild ⟨0⟩ ⟨3⟩]
    ∃ n, upgradeAndRecover p initial (Node.new Sample.hostName Store.new) = .ok true n ∧
      n.PermitsAll actions ∧ (n.run actions).graph.ids.Nodup ∧
      (n.run actions).graph.Persistent (n.run actions).children ⟨8⟩ ∧
      ¬(n.run actions).graph.Persistent (n.run actions).children ⟨9⟩ := by
  intro p initial late transient actions
  have hgiven : (match upgradeAndRecover p initial (Node.new Sample.hostName Store.new) with
      | .ok isNew n => isNew && decide (n.PermitsAll actions ∧ (n.run actions).graph.ids.Nodup ∧
          (∃ o ∈ (n.run actions).graph.get? ⟨8⟩, o.listeners = n.followers) ∧
          ∃ o ∈ (n.run actions).graph.get? ⟨9⟩, o.listeners = [])
      | .error .. => false) = true := by
    decide +kernel
  clear_value p initial late transient actions
  cases hr : upgradeAndRecover p initial (Node.new Sample.hostName Store.new) with
  | error e n =>
    rw [hr] at hgiven
    cases hgiven
  | ok isNew n =>
    rw [hr] at hgiven
    obtain ⟨hnew, hgiven⟩ := Bool.and_eq_true_iff.1 hgiven
    obtain ⟨hpermits, hids, ⟨o, ho, hl⟩, x, hx, hnone⟩ := of_decide_eq_true hgiven
    cases hnew
    obtain ⟨l, hfollowers, hlistens⟩ := run_listens p initial Sample.hostName Store.new
      (.inl ⟨true, hr⟩) actions hpermits hids
    refine ⟨n, rfl, hpermits, hids, (hlistens _ o ho).1.1 ?_, fun hon => ?_⟩
    · rw [hl, hfollowers]
      exact List.mem_singleton_self l
    · have hmem := (hlistens _ x hx).1.2 hon
      rw [hnone] at hmem
      cases hmem

end Recovery

end BrokerConfig.Live
