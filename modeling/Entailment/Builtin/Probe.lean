import Entailment.Builtin.Basic

/-!
# Probes

A probe is a builtin with a fixed answer that records what its calls see and asks
for given effects, which makes the workings of an engine observable.
-/

namespace Entailment

structure Probe where
  name : String
  arity : Option Nat := none
  safe : Bool := true
  monotonic : Bool := true
  answer : Bool := true
  /-- Which argument to bind, and to what. -/
  binding : Option (Nat × Node) := none
  /-- Positions of the body to look at. -/
  matched : Option (List Nat) := none
  contains : Option Triple := none
  find : Option TriplePattern := none
  remove : Option Triple := none
  drop : Option Triple := none
  hide : Option Node := none

namespace Probe

def observation (p : Probe) (ctx : CallContext) (args : List Node) : Observation :=
  { builtin := p.name
    args
    label := ctx.label
    speculative := ctx.speculative
    matched := p.matched.map fun positions => positions.map ctx.matched?
    contains := p.contains.map ctx.contains
    found := p.find.map ctx.find }

def requestAll (p : Probe) (ctx : CallContext) (st : CallState) : CallState :=
  let st := (p.remove.map (st.remove ctx)).getD st
  let st := (p.drop.map (st.drop ctx)).getD st
  (p.hide.map (st.hide ctx)).getD st

/-- Records the call, asks for the effects and makes the binding, in this order. -/
def run (p : Probe) : Procedure := fun ctx args st =>
  let st := p.requestAll ctx (st.observe (p.observation ctx args))
  match p.binding with
  | none => (p.answer, st)
  | some (i, value) =>
    match args[i]? with
    | none => (false, st)
    | some target =>
      let (bound, st) := st.bind target value
      (p.answer && bound, st)

def toBuiltin (p : Probe) : Builtin :=
  { name := p.name, arity := p.arity, safe := p.safe, monotonic := p.monotonic, body := p.run }

end Probe

end Entailment
