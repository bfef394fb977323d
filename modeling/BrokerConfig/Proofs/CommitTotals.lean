import BrokerConfig.Proofs.Resume
import BrokerConfig.Proofs.WriteBack

namespace BrokerConfig

open Live (Node)
open Live.Recovery (persist written)

namespace Upgrade

def Commit.Touches (c : Commit) (id : RecordId) : Prop :=
  id ∈ c.changes.updates.ids ∨ id ∈ c.changes.deletes.ids

theorem replay_concat (commits : List Commit) (c : Commit) (s : RecordSet) :
    replay (commits ++ [c]) s = (replay commits s).apply c.changes := by
  simp [replay]

namespace Outcome

def addAll (o : Outcome) (commits : List Commit) : Outcome := commits.foldl add o

structure Totals (s : RecordSet) (commits : List Commit) (o : Outcome) : Prop where
  apart : ∀ id ∈ o.net.updates.ids, id ∉ o.net.deletes.ids
  deletesFirst : ∀ id, (s.apply o.net).get? id = (replay commits s).get? id
  updatesFirst : ∀ id, (written s o.net).get? id = (replay commits s).get? id
  persisted : ∀ n : Node, n.store.isOpen → n.store.contents = s →
    Ends (persist o) n (fun _ n' => ∀ id, n'.store.contents.get? id = (replay commits s).get? id)
      fun _ _ => False
  untouched : ∀ id, (∀ c ∈ commits, ¬c.Touches id) →
    id ∉ o.net.updates.ids ∧ id ∉ o.net.deletes.ids

variable {s : RecordSet} {commits : List Commit} {version : String}

theorem addAll_concat (o : Outcome) (commits : List Commit) (c : Commit) :
    o.addAll (commits ++ [c]) = (o.addAll commits).add c := by
  simp [addAll]

theorem net_add (o : Outcome) (c : Commit) : (o.add c).net = o.net.followedBy c.changes := rfl

theorem accounts_addAll (s : RecordSet) (version : String) (commits : List Commit) :
    Accounts s (replay commits s) ((unchanged s version).addAll commits).net := by
  induction commits using List.reverseRecOn with
  | nil => exact .refl s
  | append_singleton commits c ih =>
    -- the commit meets a net effect that accounts for all commits before it
    rw [addAll_concat, net_add, replay_concat]
    exact ih.apply c.changes

theorem mem_updates_addAll {id : RecordId}
    (h : id ∈ ((unchanged s version).addAll commits).net.updates.ids) :
    ∃ c ∈ commits, id ∈ c.changes.updates.ids := by
  induction commits using List.reverseRecOn with
  | nil => cases h
  | append_singleton commits c ih =>
    rw [addAll_concat, net_add, Changes.updates_followedBy, RecordSet.ids_apply, List.mem_append,
      List.mem_filter, List.mem_filter] at h
    rcases h with ⟨hearlier, -⟩ | ⟨hnow, -⟩
    · obtain ⟨e, he, hid⟩ := ih hearlier
      exact ⟨e, List.mem_append_left _ he, hid⟩
    · exact ⟨c, List.mem_append_right _ List.mem_cons_self, hnow⟩

theorem mem_deletes_addAll {id : RecordId}
    (h : id ∈ ((unchanged s version).addAll commits).net.deletes.ids) :
    ∃ c ∈ commits, id ∈ c.changes.deletes.ids := by
  induction commits using List.reverseRecOn with
  | nil => cases h
  | append_singleton commits c ih =>
    rw [addAll_concat, net_add, Changes.mem_deletes_followedBy] at h
    rcases h with ⟨-, hnow | hearlier⟩
    · exact ⟨c, List.mem_append_right _ List.mem_cons_self, hnow⟩
    · obtain ⟨e, he, hid⟩ := ih hearlier
      exact ⟨e, List.mem_append_left _ he, hid⟩

/-- After any number of commits an outcome has their net effect, in either order of its parts. -/
theorem commits_add_up (s : RecordSet) (version : String) (commits : List Commit) (k : Nat) :
    Totals s (commits.take k) ((unchanged s version).addAll (commits.take k)) := by
  have h := accounts_addAll s version (commits.take k)
  constructor
  case apart => exact h.apart
  case deletesFirst => exact fun id => (h.same id).symm
  case updatesFirst => exact h.get?_updates_first
  case persisted =>
    intro n ho hs
    apply (Live.Recovery.ends_persist ho).imp
    intro _ n' hn' id
    rw [hn', hs]
    exact h.get?_updates_first id
  case untouched =>
    intro id huntouched
    constructor
    · intro hu
      obtain ⟨c, hc, hid⟩ := mem_updates_addAll hu
      exact huntouched c hc (.inl hid)
    · intro hd
      obtain ⟨c, hc, hid⟩ := mem_deletes_addAll hd
      exact huntouched c hc (.inr hid)

theorem commits_add_up_recreated :
    let queue := fun id : BitVec 128 => Record.bare ⟨id⟩ Category.queue
    let renewed := (queue 1).withAttribute Attribute.name (.text "renewed")
    let s := RecordSet.ofList [queue 1, queue 3]
    let commits : List Commit :=
      [⟨"1.0", "1.1", (Changes.empty.update (queue 2)).delete (queue 1)⟩,
        ⟨"1.1", "2.0", (Changes.empty.update renewed).delete (queue 2)⟩]
    let o := (unchanged s "1.0").addAll (commits.take 2)
    let n := Node.new "test" ⟨true, true, s⟩
    n.store.isOpen ∧ n.store.contents = s ∧ (∀ c ∈ commits.take 2, ¬c.Touches ⟨3⟩) ∧
      o.net = ⟨RecordSet.ofList [renewed], RecordSet.ofList [queue 2]⟩ ∧
      (replay commits s).records = [queue 3, renewed] ∧
      Ends (persist o) n
        (fun _ n' => ∀ id, n'.store.contents.get? id = (replay (commits.take 2) s).get? id)
        (fun _ _ => False) ∧
      ⟨3⟩ ∉ o.net.updates.ids ∧ ⟨3⟩ ∉ o.net.deletes.ids := by
  intro queue renewed s commits o n
  have htotals := commits_add_up s "1.0" commits 2
  have huntouched : ∀ c ∈ commits.take 2, ¬c.Touches ⟨3⟩ := by
    unfold Commit.Touches
    decide
  exact ⟨rfl, rfl, huntouched, rfl, rfl, htotals.persisted n rfl rfl,
    htotals.untouched ⟨3⟩ huntouched⟩

end Outcome

end Upgrade

end BrokerConfig
