import Entailment.Forward.Firing
import Entailment.Forward.Matching

/-!
# Runs of the engine

An operation queues work, and a run does it: events first, then activations in the
order of the agenda, then suspects, the last one first, and when nothing is left the
activations that may have to be asked again.  An operation is refused by an engine
that is closed; a run that fails closes the engine.
-/

namespace Entailment

namespace Work

variable {γ : Type} [Graph γ]

/-- Follows up a triple that came or went, if the view agrees that it did. -/
def propagate : Event → Work γ Unit
  | .added t => do
    if ← isVisible t then
      count fun s => { s with events := s.events + 1 }
      ((← get).network.activations t).forM (activate t)
  | .deleted t => do
    unless ← isVisible t do
      count fun s => { s with events := s.events + 1 }
      let rules := ((← get).network.activations t).map Subscriber.rule
      rules.eraseDups.forM (retractTokens t)

/-- Does one piece of work.  Gives the number of times that activations have been asked
again in this run, or nothing if all is done. -/
def step (rechecks : Nat) : Work γ (Option Nat) := do
  let e ← get
  match e.events, e.agenda, e.suspects.pop? with
  | event :: events, _, _ =>
    set { e with events, state := .propagating }
    propagate event
    return some rechecks
  | [], a :: agenda, _ =>
    set { e with agenda, state := .firing }
    fire a
    return some rechecks
  | [], [], some (t, suspects) =>
    set { e with suspects }
    checkSupport t
    return some rechecks
  | [], [], none =>
    if e.network.isMonotonic || e.maxRechecks ≤ rechecks then return none
    count fun s => { s with rechecks := s.rechecks + 1 }
    if ← recheck then return some (rechecks + 1) else return none

end Work

namespace Engine

variable {γ α : Type} [Graph γ]

/-- Does pieces of work, at most as many as the budget, until none is left. -/
def run : (budget : Nat) → (rechecks : Nat) → Engine γ → Outcome (Engine γ) Unit
  | 0, _, _ => .unfinished
  | budget + 1, rechecks, e =>
    match Work.step rechecks e with
    | .ok (some rechecks) e => run budget rechecks e
    | .ok none e => .done () { e with state := .idle }
    | .error cause e => .failed cause e.close

/-- An operation: a request to an open engine, and the run that follows. -/
def operate (budget : Nat) (request : Work γ α) (e : Engine γ) : Outcome (Engine γ) α :=
  if e.isClosed then .failed .closed e
  else
    match request e with
    | .ok answer e => (run budget 0 e).map fun _ => answer
    | .error cause e => .failed cause e

end Engine

namespace Work

variable {γ : Type} [Graph γ]

/-- Puts the one activation of a rule without patterns on the agenda. -/
def scheduleOnce (rule : Nat) : Work γ Unit :=
  modify fun e => { e.schedule ⟨rule, e.nextToken⟩ with nextToken := e.nextToken + 1 }

/-- Forgets everything and takes the base as news. -/
def restart : Work γ Unit := do
  modify Engine.reset
  let e ← get
  let facts ← access (Graph.find e.base .any)
  set { e with events := facts.map .added }
  let unconditional := e.network.rules.zipIdx.filter fun (c, _) => c.patterns.isEmpty
  unconditional.forM fun (_, rule) => scheduleOnce rule

/-- Adds to the base, and tells whether the triple was new there. -/
def addToBase (t : Triple) : Work γ Bool := do
  let e ← get
  let (added, base) ← access (Graph.add e.base t)
  set { e with base }
  if added && !e.deductions.contains t then
    modify fun e => e.queue (.added t)
  return added

/-- Deletes from the base, or else from the deductions.  A triple of the base that is
deduced as well stays visible, but has lost a part of its support. -/
def deleteVisible (t : Triple) : Work γ Bool := do
  let e ← get
  let (stored, base) ← access (Graph.delete e.base t)
  set { e with base }
  if stored then
    if e.deductions.contains t then suspect t
    else modify fun e => e.queue (.deleted t)
    return true
  if ← retractDeduction t then
    modify fun e => { e with committed := e.committed.erase t }.queue (.deleted t)
    return true
  return false

end Work

namespace Engine

variable {γ : Type} [Graph γ]

/-- Computes the conclusions from nothing. -/
def recompute (budget : Nat) (e : Engine γ) : Outcome (Engine γ) Unit :=
  e.operate budget Work.restart

def add (budget : Nat) (t : Triple) (e : Engine γ) : Outcome (Engine γ) Bool :=
  e.operate budget (Work.addToBase t)

def delete (budget : Nat) (t : Triple) (e : Engine γ) : Outcome (Engine γ) Bool :=
  e.operate budget (Work.deleteVisible t)

/-- Tells that a triple has come to the base or left it. -/
def announce (budget : Nat) (event : Event) (e : Engine γ) : Outcome (Engine γ) Unit :=
  e.operate budget (modify fun e => e.queue event)

end Engine

end Entailment
