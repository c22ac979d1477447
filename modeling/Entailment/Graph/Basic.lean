import Entailment.Graph.Index

/-!
# Graphs

What the reasoner asks of a graph: to find, add, delete and count triples.  Every
access may fail.  A `MemoryGraph` keeps its triples in an index and refuses those
that are not ground; a `GuardedGraph` fails on each access by one predicate.
-/

namespace Entailment

class Graph (γ : Type) where
  find : γ → TriplePattern → Except GraphError (List Triple)
  /-- Whether the triple was absent, and the graph that holds it. -/
  add : γ → Triple → Except GraphError (Bool × γ)
  /-- Whether the triple was present, and the graph without it. -/
  delete : γ → Triple → Except GraphError (Bool × γ)
  contains : γ → Triple → Except GraphError Bool
  size : γ → Nat

namespace Graph

variable {γ : Type} [Graph γ]

/-- Membership answered by a search for the triple's own pattern. -/
def containsByFind (g : γ) (t : Triple) : Except GraphError Bool := do
  let found ← find g (.ofTriple t)
  return !found.isEmpty

end Graph

structure GraphStats where
  triples : Nat
  subjects : Nat
  predicates : Nat
  objects : Nat

structure MemoryGraph where
  index : TripleIndex := .empty
deriving Inhabited

namespace MemoryGraph

def empty : MemoryGraph := {}

def find (g : MemoryGraph) (p : TriplePattern) : List Triple := g.index.find p

def contains (g : MemoryGraph) (t : Triple) : Bool := g.index.contains t

def size (g : MemoryGraph) : Nat := g.index.size

def add (g : MemoryGraph) (t : Triple) : Except GraphError (Bool × MemoryGraph) := do
  if !t.isGround then throw (.invalidTriple t)
  let (added, index) ← g.index.insert t
  return (added, ⟨index⟩)

def delete (g : MemoryGraph) (t : Triple) : Except GraphError (Bool × MemoryGraph) := do
  let (removed, index) ← g.index.remove t
  return (removed, ⟨index⟩)

/-- A graph of the given triples; the first that is not ground is refused. -/
def ofTriples (ts : List Triple) : Except GraphError MemoryGraph :=
  ts.foldlM (fun g t => do return (← g.add t).2) empty

def triples (g : MemoryGraph) : List Triple := g.find .any

def stats (g : MemoryGraph) : GraphStats :=
  ⟨g.index.size, g.index.subjectCount, g.index.predicateCount, g.index.objectCount⟩

instance : Graph MemoryGraph where
  find g p := .ok (g.find p)
  add := add
  delete := delete
  contains g t := .ok (g.contains t)
  size := size

end MemoryGraph

/-- A memory graph in which each access by the forbidden predicate fails with
the given detail. -/
structure GuardedGraph where
  graph : MemoryGraph
  forbidden : Option Node := none
  detail : String := "access denied"
deriving Inhabited

namespace GuardedGraph

def forbids (g : GuardedGraph) (predicate : Option Node) : Bool :=
  match g.forbidden, predicate with
  | some n, some p => n == p
  | _, _ => false

/-- An access that fails if it goes by the forbidden predicate. -/
def guarded {α : Type} (g : GuardedGraph) (predicate : Option Node)
    (access : Except GraphError α) : Except GraphError α :=
  if g.forbids predicate then .error (.index g.detail) else access

def update (g : GuardedGraph) (result : Except GraphError (Bool × MemoryGraph)) :
    Except GraphError (Bool × GuardedGraph) :=
  result.map fun (changed, graph) => (changed, { g with graph })

instance : Graph GuardedGraph where
  find g p := g.guarded p.predicate (.ok (g.graph.find p))
  add g t := g.guarded t.predicate (g.update (g.graph.add t))
  delete g t := g.guarded t.predicate (g.update (g.graph.delete t))
  contains g t := g.guarded t.predicate (.ok (g.graph.contains t))
  size g := g.graph.size

end GuardedGraph

end Entailment
