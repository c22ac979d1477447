import Entailment.Graph.Basic

/-!
# The visible graph

Rules see the base graph and the deductions together.  A triple in both is seen
once, at its place in the base.
-/

namespace Entailment

structure View (γ : Type) where
  base : γ
  deductions : MemoryGraph

namespace View

variable {γ : Type} [Graph γ]

def find (v : View γ) (p : TriplePattern) : Except GraphError (List Triple) := do
  let stored ← Graph.find v.base p
  return (OrderedSet.ofList (stored ++ v.deductions.find p)).members

def contains (v : View γ) (t : Triple) : Except GraphError Bool := do
  if ← Graph.contains v.base t then return true
  return v.deductions.contains t

def inBase (v : View γ) (t : Triple) : Except GraphError Bool := Graph.contains v.base t

end View

end Entailment
