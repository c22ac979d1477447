import Entailment.Forward.Support

/-!
# Firing

An activation fires when the calls of its body hold: its conclusions become
deductions, and what its head asked to remove is removed.  Where a rule asks for
something that more triples can make false, its activations are asked again once the
rest is done.
-/

namespace Entailment

namespace CompiledRule

variable {γ : Type} [Graph γ]

/-- The conclusions of the rule, if the calls of its body hold. -/
def evaluate (c : CompiledRule) (registry : Registry) (ctx : CallContext) (st : CallState) :
    Option (List Triple) × CallState :=
  match allHold (fun call st => call.holds registry ctx st) c.calls st with
  | (false, st) => (none, st)
  | (true, st) =>
    let (conclusions, st) := c.rule.conclude registry ctx st
    (some conclusions, st)

end CompiledRule

namespace Work

variable {γ : Type}

/-- Reports a firing. -/
def report (c : CompiledRule) (conclusions : List Triple) : Work γ Unit :=
  modify fun e =>
    if e.traceFirings then
      let line := "fired " ++ c.label ++ " -> " ++ ", ".intercalate (conclusions.map Triple.text)
      { e with world := e.world.print line }
    else e

variable [Graph γ]

/-- Notes who drew a conclusion, and how. -/
def credit (a : Activation) (c : CompiledRule) (matched : List (Option Triple)) (t : Triple) :
    Work γ Unit :=
  modify fun e =>
    let e :=
      if e.logging then
        { e with derivations := (e.derivations.record ⟨t, c.rule, matched⟩).2 }
      else e
    if c.destructive then { e with committed := e.committed.insert t }
    else { e with support := e.support.alter t (·.insert a) }

/-- Makes a conclusion a deduction; if it was not visible, it has come into view. -/
def assert (t : Triple) : Work γ Unit := do
  let e ← get
  let (added, deductions) ← access (e.deductions.add t)
  set { e with deductions }
  if added then
    unless ← inBase t do
      modify fun e => e.queue (.added t)

/-- Removes a triple from base and deductions for good. -/
def removeEverywhere (announced : Bool) (t : Triple) : Work γ Unit := do
  let e ← get
  let (stored, base) ← access (Graph.delete e.base t)
  set { e with base }
  let deduced ← retractDeduction t
  modify fun e => { e with committed := e.committed.erase t }
  if announced && (stored || deduced) then
    modify fun e => e.queue (.deleted t)

/-- Takes over what a firing has concluded and asked for. -/
def settleFiring (a : Activation) (c : CompiledRule) (matched : List (Option Triple))
    (conclusions : List Triple) (effects : Effects) : Work γ Unit := do
  count fun s => { s with firings := s.firings + 1 }
  report c conclusions
  modify fun e => { e with hidden := effects.hidden.foldl hideOnce e.hidden }
  modify fun e => e.setFiring a (.fired conclusions effects.hidden c.destructive)
  conclusions.forM fun t => do
    credit a c matched t
    assert t
  effects.removed.forM (removeEverywhere true)
  effects.dropped.forM (removeEverywhere false)

/-- Fires an activation that waits, or blocks it. -/
def fire (a : Activation) : Work γ Unit := do
  let e ← get
  match e.firing? a, e.network.rule? a.rule with
  | some .pending, some c =>
    let triples := e.matchedBy a
    let bindings ← attempt (c.bindings triples)
    let matched := c.matched triples
    let ctx := CallContext.ofView e.view c.label matched false
    let (answer, st) := c.evaluate e.network.registry ctx { bindings, world := e.world }
    set { e with world := st.world }
    match answer with
    | none =>
      count fun s => { s with blocked := s.blocked + 1 }
      modify fun e => e.setFiring a .blocked
    | some conclusions => settleFiring a c matched conclusions st.effects
  | _, _ => return

/-- Whether the calls of an activation's body hold now, as far as they can be asked
without effect. -/
def stillHolds (c : CompiledRule) (triples : List Triple) : Work γ Bool := do
  let e ← get
  let bindings ← attempt (c.bindings triples)
  let ctx := CallContext.ofView e.view c.label (c.matched triples) true
  let ask : Call → CallState → Bool × CallState := fun call st =>
    call.holdsSpeculatively e.network.registry ctx st
  let (held, st) := allHold ask c.calls { bindings, world := e.world }
  set { e with world := st.world }
  return held

/-- Asks an activation again that had fired, or had been blocked, and tells whether
the answer has changed. -/
def reconsider (c : CompiledRule) (a : Activation) (fired : Bool) : Work γ Bool := do
  let e ← get
  let triples := e.matchedBy a
  let held ← stillHolds c triples
  if fired && !held then
    modify fun e => e.setFiring a .blocked
    retract a triples ((e.firing? a).getD .blocked)
    return true
  else if !fired && held then
    modify fun e => e.schedule a
    return true
  else return false

/-- Asks the activations of one rule again. -/
def recheckRule (c : CompiledRule) (rule : Nat) : Work γ Bool := do
  let answers ← ((← get).memory rule).revisable.mapM fun (id, fired) =>
    reconsider c ⟨rule, id⟩ fired
  return answers.any id

/-- Asks all activations again whose answer can change. -/
def recheck : Work γ Bool := do
  let rules := (← get).network.rules.zipIdx.filter fun (c, _) => c.nonMonotonic
  let answers ← rules.mapM fun (c, rule) => recheckRule c rule
  return answers.any id

end Work

end Entailment
