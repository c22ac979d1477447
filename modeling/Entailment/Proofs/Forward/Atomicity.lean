import Entailment.Proofs.Forward.Endurance
import Entailment.Proofs.Forward.Order
import Entailment.Proofs.Forward.Severity

/-!
# What a failure leaves

An operation that fails has either changed nothing, or it has closed the engine and there
is nothing left of what was concluded.  A request that is refused has written nothing
before: the graph of the deductions, which could refuse a deletion after the base has
granted it, never does as long as its orders of triples agree.  Only to start over forgets
all conclusions before the base is asked for its triples.
-/

namespace Entailment

namespace Engine

end Engine

/-! ## Deductions stay intact -/

namespace Work

open Engine

variable {γ α : Type}

variable [Graph γ]

end Work

namespace Operation

variable {γ : Type} [Graph γ] {e e' : Engine γ} {o : Operation} {budget : Nat} {cause : Failure}

end Operation

namespace Engine

variable {γ : Type} [Graph γ] {e e' : Engine γ} {n : Network}

end Engine

namespace Operation

variable {γ : Type} [Graph γ] {e e' : Engine γ} {o : Operation} {budget : Nat} {cause : Failure}

open Engine

/-- A memory graph that cannot be listed, and answers all else. -/
structure UnlistedGraph where
  graph : MemoryGraph

namespace UnlistedGraph

def update (result : Except GraphError (Bool × MemoryGraph)) :
    Except GraphError (Bool × UnlistedGraph) :=
  result.map fun (changed, graph) => (changed, ⟨graph⟩)

instance : Graph UnlistedGraph where
  find g p :=
    match p with
    | ⟨none, none, none⟩ => .error (.index "not listed")
    | p => .ok (g.graph.find p)
  add g t := update (g.graph.add t)
  delete g t := update (g.graph.delete t)
  contains g t := .ok (g.graph.contains t)
  size g := g.graph.size

end UnlistedGraph

end Operation

end Entailment
