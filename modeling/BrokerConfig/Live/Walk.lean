import BrokerConfig.Live.Graph

namespace BrokerConfig.Live

structure Walk (σ : Type) where
  state : σ
  seen : List RecordId
  pending : List Ref
  visited : List (Ref × Entity)

namespace Walk

variable {σ : Type}

def start (s : σ) (ref : Ref) : Walk σ := ⟨s, [], [ref], []⟩

def refs (w : Walk σ) : List Ref := w.visited.map Prod.fst

variable (graph : σ → Graph) (descend : Entity → Bool) (act : Ref → σ → σ)

def turn (w : Walk σ) : Walk σ :=
  match w.pending with
  | [] => w
  | ref :: pending =>
    match (graph w.state).get? ref with
    | none => { w with pending }
    | some o =>
      if o.id ∈ w.seen then { w with pending }
      else
        let state := act ref w.state
        let left := ((graph state).get? ref).getD o
        let children := if descend left then left.children.reverse else []
        { state
          seen := o.id :: w.seen
          pending := children ++ pending
          visited := w.visited ++ [(ref, left)] }

def turns : Nat → Walk σ → Walk σ
  | 0, w => w
  | k + 1, w => turns k (turn graph descend act w)

def run (s : σ) (ref : Ref) : Walk σ :=
  turns graph descend act ((graph s).links + 1) (start s ref)

end Walk

end BrokerConfig.Live
