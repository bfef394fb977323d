import BrokerConfig.Upgrade.Step

namespace BrokerConfig.Upgrade.Chain

def repeatedSource? (seen : List String) : List Step → Option ChainFlaw
  | [] => none
  | step :: rest =>
    if step.source ∈ seen then some (.repeatedSource step.source)
    else repeatedSource? (step.source :: seen) rest

def gap? : List Step → Option ChainFlaw
  | step :: next :: rest =>
    if step.target = next.source then gap? (next :: rest)
    else some (.gap step.name step.target next.name next.source)
  | _ => none

def wrongTarget? (chain : List Step) (target : String) : Option ChainFlaw :=
  match chain.getLast? with
  | none => some .empty
  | some last =>
    if last.target = target then none else some (.wrongTarget last.target target)

def flaw? (chain : List Step) (target : String) : Option ChainFlaw :=
  if chain = [] then some .empty
  else match repeatedSource? [] chain with
    | some flaw => some flaw
    | none => match gap? chain with
      | some flaw => some flaw
      | none => wrongTarget? chain target

inductive Contiguous : List Step → Prop
  | empty : Contiguous []
  | single (step : Step) : Contiguous [step]
  | link {step next : Step} {rest : List Step} (joined : step.target = next.source)
      (tail : Contiguous (next :: rest)) : Contiguous (step :: next :: rest)

structure Valid (chain : List Step) (target : String) : Prop where
  distinct : (chain.map Step.source).Nodup
  contiguous : Contiguous chain
  reaches : ∃ last, chain.getLast? = some last ∧ last.target = target

theorem repeatedSource?_eq_none_iff {seen : List String} {chain : List Step} :
    repeatedSource? seen chain = none ↔
      (chain.map Step.source).Nodup ∧ ∀ step ∈ chain, step.source ∉ seen := by
  induction chain generalizing seen with
  | nil => simp [repeatedSource?]
  | cons step rest ih =>
    by_cases h : step.source ∈ seen
    · simp [repeatedSource?, h]
    · simp only [repeatedSource?, h, if_false, ih, List.mem_cons, not_or, List.map_cons,
        List.nodup_cons, List.mem_map, not_exists, not_and, forall_eq_or_imp, not_false_eq_true,
        true_and]
      constructor
      · rintro ⟨hn, hs⟩
        exact ⟨⟨fun x hx e => (hs x hx).1 e, hn⟩, fun x hx => (hs x hx).2⟩
      · rintro ⟨⟨hd, hn⟩, hs⟩
        exact ⟨hn, fun x hx => ⟨hd x hx, hs x hx⟩⟩

theorem gap?_eq_none_iff {chain : List Step} : gap? chain = none ↔ Contiguous chain := by
  induction chain with
  | nil => exact ⟨fun _ => .empty, fun _ => rfl⟩
  | cons step rest ih =>
    cases rest with
    | nil => exact ⟨fun _ => .single step, fun _ => rfl⟩
    | cons next rest =>
      by_cases h : step.target = next.source
      · simp only [gap?, h, if_true, ih]
        exact ⟨fun hc => .link h hc, fun | .link _ hc => hc⟩
      · simp only [gap?, h, if_false, reduceCtorEq, false_iff]
        intro hc
        cases hc with
        | link joined _ => exact h joined

theorem wrongTarget?_eq_none_iff {chain : List Step} {target : String} :
    wrongTarget? chain target = none ↔
      ∃ last, chain.getLast? = some last ∧ last.target = target := by
  unfold wrongTarget?
  cases chain.getLast? with
  | none => simp
  | some last => by_cases h : last.target = target <;> simp [h]

theorem flaw?_eq_none_iff {chain : List Step} {target : String} :
    flaw? chain target = none ↔ Valid chain target := by
  by_cases he : chain = []
  · subst he
    simp only [flaw?, if_true, reduceCtorEq, false_iff]
    rintro ⟨_, _, last, h, _⟩
    simp at h
  · have hr := @repeatedSource?_eq_none_iff [] chain
    have hg := @gap?_eq_none_iff chain
    have hw := @wrongTarget?_eq_none_iff chain target
    simp only [flaw?, he, if_false]
    constructor
    · intro h
      split at h
      · simp at h
      · split at h
        · simp at h
        · rename_i _ hr' _ hg'
          exact ⟨(hr.1 hr').1, hg.1 hg', hw.1 h⟩
    · rintro ⟨hd, hc, ht⟩
      rw [hr.2 ⟨hd, by simp⟩, hg.2 hc]
      exact hw.2 ht

theorem valid_standardChain : Valid standardChain currentVersion :=
  flaw?_eq_none_iff.1 (by decide)

end BrokerConfig.Upgrade.Chain
