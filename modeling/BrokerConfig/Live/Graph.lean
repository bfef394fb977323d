import BrokerConfig.Live.Entity

/-!
Graphs of live objects. Children may be shared and may lead back to their parents. A walk visits
what can be reached, each id once, the last child first; the outline of an object lists its tree in
the order of the children and opens each id once.
-/

namespace BrokerConfig.Live

structure Graph where
  objects : List Entity
  deriving DecidableEq

namespace Graph

def empty : Graph := ⟨[]⟩

def get? (g : Graph) (ref : Ref) : Option Entity := g.objects[ref.index]?

def modify (g : Graph) (ref : Ref) (f : Entity → Entity) : Graph :=
  ⟨g.objects.modify ref.index f⟩

def next (g : Graph) : Ref := ⟨g.objects.length⟩

def add (g : Graph) (o : Entity) : Graph := ⟨g.objects ++ [o]⟩

def adopt (g : Graph) (parent child : Ref) : Graph := g.modify parent (·.adopt child)

def hasId (g : Graph) (id : RecordId) (ref : Ref) : Bool :=
  match g.get? ref with
  | some o => o.id = id
  | none => false

def isVirtualHost (g : Graph) (ref : Ref) : Bool :=
  match g.get? ref with
  | some o => o.isVirtualHost
  | none => false

def links (g : Graph) : Nat := (g.objects.flatMap Entity.children).length

def visit (g : Graph) (descend : Entity → Bool) :
    (fuel : Nat) → (seen : List RecordId) → (pending : List Ref) → List Ref
  | 0, _, _ => []
  | _, _, [] => []
  | fuel + 1, seen, ref :: pending =>
    match g.get? ref with
    | none => visit g descend fuel seen pending
    | some o =>
      if o.id ∈ seen then visit g descend fuel seen pending
      else
        let children := if descend o then o.children.reverse else []
        ref :: visit g descend fuel (o.id :: seen) (children ++ pending)

def walk (g : Graph) (descend : Entity → Bool) (start : Ref) : List Ref :=
  g.visit descend (g.links + 1) [] [start]

def durableWalk (g : Graph) (start : Ref) : List Ref := g.walk Entity.durable start

def outlineFrom (g : Graph) :
    (fuel : Nat) → (opened : List RecordId) → (pending : List (Nat × Ref)) → List (Nat × Ref)
  | 0, _, _ => []
  | _, _, [] => []
  | fuel + 1, opened, (depth, ref) :: pending =>
    match g.get? ref with
    | none => outlineFrom g fuel opened pending
    | some o =>
      let children := if o.id ∈ opened then [] else o.children.map (depth + 1, ·)
      (depth, ref) :: outlineFrom g fuel (o.id :: opened) (children ++ pending)

def outline (g : Graph) (start : Ref) : List (Nat × Ref) :=
  g.outlineFrom (g.links + 1) [] [(0, start)]

def findBelow? (g : Graph) (start : Ref) (id : RecordId) : Option Ref :=
  ((g.outline start).map Prod.snd).find? (g.hasId id)

/-- The parent of a recovered object: the first of the recovered ones that its virtual host parent
names, or else the virtual host. -/
def parentAmong (g : Graph) (recovered : List Ref) (host child : Ref) : Ref :=
  match (g.get? child).bind fun o => o.parents.get? Category.virtualHost with
  | some id => (recovered.find? (g.hasId id)).getD host
  | none => host

def addAll (g : Graph) : List Entity → List Ref × Graph
  | [] => ([], g)
  | o :: rest =>
    let (refs, grown) := addAll (g.add o) rest
    (g.next :: refs, grown)

def plant (g : Graph) (root : Record) (others : List Record) : Ref × Graph :=
  let host := g.next
  let (refs, grown) := (g.add (.ofRecord root)).addAll (others.map .ofRecord)
  (host, refs.foldl (fun h ref => h.adopt (grown.parentAmong refs host ref) ref) grown)

theorem get?_modify (g : Graph) (ref other : Ref) (f : Entity → Entity) :
    (g.modify ref f).get? other = if ref = other then (g.get? other).map f else g.get? other := by
  obtain ⟨i⟩ := ref
  obtain ⟨j⟩ := other
  by_cases h : i = j <;> simp [get?, modify, h]

theorem get?_add (g : Graph) (o : Entity) (ref : Ref) :
    (g.add o).get? ref = if ref = g.next then some o else g.get? ref := by
  obtain ⟨i⟩ := ref
  rcases Nat.lt_trichotomy i g.objects.length with h | h | h
  · have hne : i ≠ g.objects.length := by omega
    simp [get?, add, next, hne, List.getElem?_append_left h]
  · simp [get?, add, next, h]
  · have hne : i ≠ g.objects.length := by omega
    have hout : g.objects.length ≤ i := by omega
    have hall : (g.objects ++ [o]).length ≤ i := by
      simp only [List.length_append, List.length_singleton]
      omega
    simp [get?, add, next, hne, List.getElem?_eq_none hout, List.getElem?_eq_none hall]

end Graph

end BrokerConfig.Live
