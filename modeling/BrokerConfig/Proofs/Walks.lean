import Mathlib.Data.List.Flatten
import BrokerConfig.Live.Graph

namespace BrokerConfig.Live.Graph

variable {g : Graph} {descend : Entity → Bool} {seen : List RecordId}

def ids (g : Graph) : List RecordId := g.objects.map Entity.id

theorem mem_of_get? {ref : Ref} {o : Entity} (h : g.get? ref = some o) : o ∈ g.objects :=
  List.mem_of_getElem? h

theorem eq_of_id (hids : g.ids.Nodup) {a b : Ref} {o p : Entity} (ha : g.get? a = some o)
    (hb : g.get? b = some p) (hid : o.id = p.id) : a = b := by
  obtain ⟨i⟩ := a
  obtain ⟨j⟩ := b
  have hi : g.ids[i]? = some o.id := by
    rw [ids, List.getElem?_map]
    exact congrArg (Option.map Entity.id) ha
  have hj : g.ids[j]? = some o.id := by
    rw [ids, List.getElem?_map, hid]
    exact congrArg (Option.map Entity.id) hb
  have hlt : i < g.ids.length := (List.getElem?_eq_some_iff.1 hi).1
  have hij : i = j := (List.getElem?_inj hlt hids).1 (hi.trans hj.symm)
  rw [hij]

inductive Leads (g : Graph) (descend : Entity → Bool) : Ref → Ref → Prop
  | here {ref : Ref} {o : Entity} (get : g.get? ref = some o) : Leads g descend ref ref
  | down {ref child last : Ref} {o : Entity} (get : g.get? ref = some o) (opens : descend o)
    (mem : child ∈ o.children) (rest : Leads g descend child last) : Leads g descend ref last

inductive LeadsUnseen (g : Graph) (descend : Entity → Bool) (seen : List RecordId) :
    Ref → Ref → Prop
  | here {ref : Ref} {o : Entity} (get : g.get? ref = some o) (unseen : o.id ∉ seen) :
    LeadsUnseen g descend seen ref ref
  | down {ref child last : Ref} {o : Entity} (get : g.get? ref = some o) (unseen : o.id ∉ seen)
    (opens : descend o) (mem : child ∈ o.children)
    (rest : LeadsUnseen g descend seen child last) : LeadsUnseen g descend seen ref last

theorem Leads.unseen {a b : Ref} (h : g.Leads descend a b) : g.LeadsUnseen descend [] a b := by
  induction h with
  | here get => exact .here get List.not_mem_nil
  | down get opens mem _ ih => exact .down get List.not_mem_nil opens mem ih

theorem LeadsUnseen.start {a b : Ref} (h : g.LeadsUnseen descend seen a b) :
    ∃ o, g.get? a = some o ∧ o.id ∉ seen := by
  cases h with
  | here get unseen => exact ⟨_, get, unseen⟩
  | down get unseen _ _ _ => exact ⟨_, get, unseen⟩

theorem LeadsUnseen.split {a last ref : Ref} {o : Entity} (ho : g.get? ref = some o)
    (hsame : ∀ b p, g.Leads descend a b → g.get? b = some p → p.id = o.id → b = ref)
    (hne : last ≠ ref) (h : g.LeadsUnseen descend seen a last) :
    g.LeadsUnseen descend (o.id :: seen) a last ∨
      descend o ∧ ∃ child ∈ o.children, g.LeadsUnseen descend (o.id :: seen) child last := by
  have hother : ∀ {b : Ref} {p : Entity}, (p.id = o.id → b = ref) → b ≠ ref → p.id ∉ seen →
      p.id ∉ o.id :: seen := by
    intro b p hsame hb hunseen hmem
    rcases List.mem_cons.1 hmem with hid | hmem
    · exact hb (hsame hid)
    · exact hunseen hmem
  induction h with
  | here get unseen => exact .inl (.here get (hother (hsame _ _ (.here get) get) hne unseen))
  | @down b child _ p get unseen opens mem _ ih =>
    rcases ih (fun c q hl => hsame c q (.down get opens mem hl)) hne with hrest | hchild
    · by_cases hb : b = ref
      · subst hb
        cases ho.symm.trans get
        exact .inr ⟨opens, child, mem, hrest⟩
      · exact .inl (.down get (hother (hsame _ _ (.here get) get) hb unseen) opens mem hrest)
    · exact .inr hchild

def unseenLinks (g : Graph) (seen : List RecordId) : Nat :=
  ((g.objects.filter fun o => o.id ∉ seen).flatMap Entity.children).length

theorem unseenLinks_nil : g.unseenLinks [] = g.links := by
  have hall : (g.objects.filter fun o => o.id ∉ []) = g.objects := by simp
  rw [unseenLinks, hall, links]

theorem unseenLinks_cons {o : Entity} (ho : o ∈ g.objects) (hs : o.id ∉ seen) :
    o.children.length + g.unseenLinks (o.id :: seen) ≤ g.unseenLinks seen := by
  have hfilter : (g.objects.filter fun p => p.id ∉ o.id :: seen) =
      (g.objects.filter fun p => p.id ∉ seen).filter fun p => p.id ≠ o.id := by
    rw [List.filter_filter]
    apply List.filter_congr
    intro p _
    simp
  have hshrinks : ∀ l : List Entity,
      ((l.filter fun p => p.id ≠ o.id).flatMap Entity.children).length ≤
        (l.flatMap Entity.children).length :=
    fun _ => (List.filter_sublist.flatMap Entity.children).length_le
  have hmem : o ∈ g.objects.filter fun p => p.id ∉ seen := List.mem_filter.2 ⟨ho, by simpa using hs⟩
  obtain ⟨before, after, hsplit⟩ := List.append_of_mem hmem
  have hbefore := hshrinks before
  have hafter := hshrinks after
  unfold unseenLinks
  rw [hfilter, hsplit]
  simp only [List.filter_append, List.flatMap_append, List.length_append, ne_eq, not_true_eq_false,
    decide_false, Bool.false_eq_true, not_false_eq_true, List.filter_cons_of_neg,
    List.flatMap_cons]
  simp only [ne_eq] at hbefore hafter
  omega

theorem leads_of_visited (g' : Graph) (descend' : Entity → Bool) {fuel : Nat} {pending : List Ref}
    {last : Ref}
    (hvisited : ∀ x ∈ g.visit descend fuel seen pending, ∀ o, g.get? x = some o →
      ∃ o', g'.get? x = some o' ∧ (descend o → descend' o' ∧ o.children ⊆ o'.children))
    (h : last ∈ g.visit descend fuel seen pending) : ∃ a ∈ pending, g'.Leads descend' a last := by
  induction fuel generalizing seen pending with
  | zero => simp [visit] at h
  | succ fuel ih =>
    cases pending with
    | nil => simp [visit] at h
    | cons ref pending =>
      have hskip : (∃ a ∈ pending, g'.Leads descend' a last) →
          ∃ a ∈ ref :: pending, g'.Leads descend' a last := by
        rintro ⟨a, ha, hl⟩
        exact ⟨a, List.mem_cons_of_mem ref ha, hl⟩
      cases ho : g.get? ref with
      | none =>
        rw [visit, ho] at h hvisited
        exact hskip (ih hvisited h)
      | some o =>
        rw [visit, ho] at h hvisited
        dsimp only at h hvisited
        split at h
        · rename_i hseen
          rw [if_pos hseen] at hvisited
          exact hskip (ih hvisited h)
        · rename_i hseen
          rw [if_neg hseen] at hvisited
          obtain ⟨o', ho', hopen⟩ := hvisited ref List.mem_cons_self o ho
          rcases List.mem_cons.1 h with rfl | h
          · exact ⟨last, List.mem_cons_self, .here ho'⟩
          · obtain ⟨a, ha, hl⟩ := ih (fun x hx => hvisited x (List.mem_cons_of_mem _ hx)) h
            rcases List.mem_append.1 ha with ha | ha
            · split at ha
              · rename_i hopens
                exact ⟨ref, List.mem_cons_self, .down ho' (hopen hopens).1
                  ((hopen hopens).2 (List.mem_reverse.1 ha)) hl⟩
              · cases ha
            · exact hskip ⟨a, ha, hl⟩

theorem leads_of_mem_visit {fuel : Nat} {pending : List Ref} {last : Ref}
    (h : last ∈ g.visit descend fuel seen pending) : ∃ a ∈ pending, g.Leads descend a last :=
  leads_of_visited g descend (fun _ _ o ho => ⟨o, ho, fun hopens => ⟨hopens, List.Subset.refl _⟩⟩) h

def DistinctBelow (g : Graph) (descend : Entity → Bool) (starts : List Ref) : Prop :=
  ∀ a ∈ starts, ∀ b ∈ starts, ∀ x y o p, g.Leads descend a x → g.Leads descend b y →
    g.get? x = some o → g.get? y = some p → o.id = p.id → x = y

theorem DistinctBelow.of_nodup (hids : g.ids.Nodup) (starts : List Ref) :
    g.DistinctBelow descend starts :=
  fun _ _ _ _ _ _ _ _ _ _ ho hp hid => eq_of_id hids ho hp hid

theorem DistinctBelow.mono {starts others : List Ref} (h : g.DistinctBelow descend starts)
    (hother : ∀ b ∈ others, ∃ a ∈ starts, ∀ x, g.Leads descend b x → g.Leads descend a x) :
    g.DistinctBelow descend others := by
  intro a ha b hb x y o p hx hy
  obtain ⟨a', ha', hax⟩ := hother a ha
  obtain ⟨b', hb', hby⟩ := hother b hb
  exact h a' ha' b' hb' x y o p (hax x hx) (hby y hy)

theorem mem_visit {fuel : Nat} {pending : List Ref} {a last : Ref}
    (hdistinct : g.DistinctBelow descend pending)
    (hfuel : pending.length + g.unseenLinks seen ≤ fuel) (ha : a ∈ pending)
    (h : g.LeadsUnseen descend seen a last) : last ∈ g.visit descend fuel seen pending := by
  induction fuel generalizing seen pending a with
  | zero =>
    have hlength := List.length_pos_of_mem ha
    omega
  | succ fuel ih =>
    cases pending with
    | nil => cases ha
    | cons ref pending =>
      rw [List.length_cons] at hfuel
      have hskip : a ≠ ref → a ∈ pending := fun hne => (List.mem_cons.1 ha).resolve_left hne
      have hrest : g.DistinctBelow descend pending :=
        hdistinct.mono fun b hb => ⟨b, List.mem_cons_of_mem _ hb, fun _ hl => hl⟩
      obtain ⟨start, hstart, hunseen⟩ := h.start
      cases ho : g.get? ref with
      | none =>
        have hne : a ≠ ref := by
          rintro rfl
          rw [hstart] at ho
          cases ho
        rw [visit, ho]
        exact ih hrest (by omega) (hskip hne) h
      | some o =>
        rw [visit, ho]
        dsimp only
        split
        · rename_i hseen
          have hne : a ≠ ref := by
            rintro rfl
            cases hstart.symm.trans ho
            exact hunseen hseen
          exact ih hrest (by omega) (hskip hne) h
        · rename_i hseen
          by_cases hlast : last = ref
          · exact hlast ▸ List.mem_cons_self
          apply List.mem_cons_of_mem
          have hlinks := unseenLinks_cons (mem_of_get? ho) hseen
          have hlength : (if descend o then o.children.reverse else []).length ≤
              o.children.length := by
            split <;> simp
          have hfuel' : ((if descend o then o.children.reverse else []) ++ pending).length +
              g.unseenLinks (o.id :: seen) ≤ fuel := by
            rw [List.length_append]
            omega
          have hbelow : g.DistinctBelow descend
              ((if descend o then o.children.reverse else []) ++ pending) := by
            apply hdistinct.mono
            intro b hb
            rcases List.mem_append.1 hb with hb | hb
            · split at hb
              · rename_i hopens
                exact ⟨ref, List.mem_cons_self, fun _ hl =>
                  .down ho hopens (List.mem_reverse.1 hb) hl⟩
              · cases hb
            · exact ⟨b, List.mem_cons_of_mem _ hb, fun _ hl => hl⟩
          have hsame : ∀ b p, g.Leads descend a b → g.get? b = some p → p.id = o.id → b = ref :=
            fun b p hl hp hid =>
              hdistinct a ha ref List.mem_cons_self b ref p o hl (.here ho) hp ho hid
          -- the rest of the path goes on from what is still pending or from a new child
          rcases h.split ho hsame hlast with hpath | ⟨hopens, child, hchild, hpath⟩
          · obtain ⟨p, hp, hfresh⟩ := hpath.start
            have hne : a ≠ ref := by
              rintro rfl
              cases ho.symm.trans hp
              exact hfresh List.mem_cons_self
            exact ih hbelow hfuel' (List.mem_append_right _ (hskip hne)) hpath
          · refine ih hbelow hfuel' (List.mem_append_left _ ?_) hpath
            rw [if_pos hopens]
            exact List.mem_reverse.2 hchild

theorem DistinctBelow.mem_walk {start ref : Ref} (h : g.DistinctBelow descend [start]) :
    ref ∈ g.walk descend start ↔ g.Leads descend start ref := by
  constructor
  · intro hmem
    obtain ⟨a, ha, hl⟩ := leads_of_mem_visit hmem
    exact List.mem_singleton.1 ha ▸ hl
  · intro hl
    have hfuel : [start].length + g.unseenLinks [] ≤ g.links + 1 := by
      rw [unseenLinks_nil, List.length_singleton]
      omega
    exact mem_visit h hfuel (List.mem_singleton.2 rfl) hl.unseen

theorem mem_walk (hids : g.ids.Nodup) {start ref : Ref} :
    ref ∈ g.walk descend start ↔ g.Leads descend start ref :=
  (DistinctBelow.of_nodup hids [start]).mem_walk

theorem Leads.exists_first {a b : Ref} (h : g.Leads descend a b) : ∃ o, g.get? a = some o := by
  cases h with
  | here get => exact ⟨_, get⟩
  | down get _ _ _ => exact ⟨_, get⟩

theorem Leads.exists_last {a b : Ref} (h : g.Leads descend a b) : ∃ o, g.get? b = some o := by
  induction h with
  | here get => exact ⟨_, get⟩
  | down _ _ _ _ ih => exact ih

theorem Leads.transfer {g' : Graph} {descend' : Entity → Bool} {a b : Ref}
    (h : g.Leads descend a b)
    (hg : ∀ ref o, g.get? ref = some o → ∃ o', g'.get? ref = some o' ∧
      (descend o → descend' o' ∧ o.children ⊆ o'.children)) : g'.Leads descend' a b := by
  induction h with
  | here get =>
    obtain ⟨_, get', _⟩ := hg _ _ get
    exact .here get'
  | down get opens mem _ ih =>
    obtain ⟨_, get', hopen⟩ := hg _ _ get
    exact .down get' (hopen opens).1 ((hopen opens).2 mem) ih

theorem Leads.mono {g' : Graph} {a b : Ref} (h : g.Leads descend a b)
    (hg : ∀ ref o, g.get? ref = some o → ∃ o', g'.get? ref = some o' ∧
      (descend o → descend o') ∧ o.children ⊆ o'.children) : g'.Leads descend a b := by
  apply h.transfer
  intro ref o ho
  obtain ⟨o', ho', hopens, hchildren⟩ := hg ref o ho
  exact ⟨o', ho', fun hopen => ⟨hopens hopen, hchildren⟩⟩

theorem Leads.trans_child {a b child last : Ref} {o : Entity} (h : g.Leads descend a b)
    (ho : g.get? b = some o) (hopens : descend o) (hmem : child ∈ o.children)
    (hrest : g.Leads descend child last) : g.Leads descend a last := by
  induction h with
  | here _ => exact .down ho hopens hmem hrest
  | down get opens mem _ ih => exact .down get opens mem (ih ho)

theorem Leads.last_step {a b : Ref} (h : g.Leads descend a b) :
    a = b ∨ ∃ parent o, g.Leads descend a parent ∧ g.get? parent = some o ∧ b ∈ o.children := by
  induction h with
  | here _ => exact .inl rfl
  | @down ref child _ o get opens mem _ ih =>
    right
    rcases ih with rfl | ⟨parent, p, hl, hp, hb⟩
    · exact ⟨ref, o, .here get, get, mem⟩
    · exact ⟨parent, p, .down get opens mem hl, hp, hb⟩

theorem Leads.closed {a b : Ref} (h : g.Leads descend a b) (inv : Ref → Prop) (start : inv a)
    (step : ∀ ref o child, g.get? ref = some o → child ∈ o.children → inv ref → inv child) :
    inv b := by
  induction h with
  | here _ => exact start
  | down get _ mem _ ih => exact ih (step _ _ _ get mem start)

theorem Leads.opens_start {a b : Ref} {o p : Entity} (h : g.Leads descend a b)
    (ho : g.get? a = some o) (hp : g.get? b = some p) (hopens : descend p) : descend o := by
  cases h with
  | here _ =>
    cases ho.symm.trans hp
    exact hopens
  | down get opens _ _ =>
    cases ho.symm.trans get
    exact opens

end BrokerConfig.Live.Graph
