import Entailment.Derivation.Log
import Entailment.Forward.Network
import Entailment.Forward.TokenMemory
import Entailment.Outcome
import Entailment.Rule.Evaluation

/-!
# The forward engine

The engine keeps the conclusions of forward rules over a base graph.  Its work waits
in three places: events tell that a triple came or went, the agenda holds complete
tokens that have not fired, and suspects are conclusions that have lost a part of
their support.  A step of work changes the engine and may fail.
-/

namespace Entailment

/-- A triple has come into view, or has left it. -/
inductive Event where
  | added (t : Triple)
  | deleted (t : Triple)
deriving Inhabited

inductive EngineState where
  | idle
  | propagating
  | firing
  | closed
deriving DecidableEq, Inhabited

namespace EngineState

def title : EngineState → String
  | .idle => "Idle"
  | .propagating => "Propagating"
  | .firing => "Firing"
  | .closed => "Closed"

end EngineState

/-- What has been done since the conclusions were last computed from nothing. -/
structure EngineStats where
  rules : Nat
  patternNodes : Nat
  events : Nat := 0
  firings : Nat := 0
  blocked : Nat := 0
  retractions : Nat := 0
  supportChecks : Nat := 0
  unfounded : Nat := 0
  rechecks : Nat := 0
deriving DecidableEq, Inhabited

namespace EngineStats

def ofNetwork (n : Network) : EngineStats :=
  { rules := n.rules.length, patternNodes := n.patterns.length }

end EngineStats

/-- A complete token of a rule. -/
structure Activation where
  rule : Nat
  token : TokenId
deriving DecidableEq, Inhabited

structure Engine (γ : Type) where
  network : Network
  base : γ
  /-- One memory for each rule. -/
  memories : List TokenMemory
  nextToken : TokenId := 0
  events : List Event := []
  agenda : List Activation := []
  /-- The firings that hold up a conclusion, committed ones left out. -/
  support : OrderedMap Triple (OrderedSet Activation) := .empty
  /-- Conclusions that stay whatever becomes of their tokens. -/
  committed : OrderedSet Triple := .empty
  suspects : OrderedSet Triple := .empty
  deductions : MemoryGraph := .empty
  derivations : DerivationLog := .empty
  /-- How many firings hide a predicate. -/
  hidden : OrderedMap Node Nat := .empty
  logging : Bool := false
  traceFirings : Bool := false
  maxRechecks : Nat := 64
  state : EngineState := .idle
  stats : EngineStats
  world : World := {}

namespace Engine

variable {γ : Type}

/-- An engine that has concluded nothing yet. -/
def start (network : Network) (base : γ) : Engine γ :=
  { network
    base
    memories := network.rules.map fun _ => .empty
    stats := .ofNetwork network }

/-- Forgets all that was concluded and all that waits. -/
def reset (e : Engine γ) : Engine γ :=
  { start e.network e.base with
    nextToken := e.nextToken
    logging := e.logging
    traceFirings := e.traceFirings
    maxRechecks := e.maxRechecks
    state := e.state
    world := e.world }

def close (e : Engine γ) : Engine γ := { e.reset with state := .closed }

def isClosed (e : Engine γ) : Bool := e.state == .closed

/-- Turns the recording of derivations on or off; off, it forgets those recorded. -/
def setLogging (e : Engine γ) (on : Bool) : Engine γ :=
  { e with logging := on, derivations := if on then e.derivations else .empty }

def view (e : Engine γ) : View γ := ⟨e.base, e.deductions⟩

def isHidden (e : Engine γ) (t : Triple) : Bool := e.hidden.contains t.predicate

def tokenCount (e : Engine γ) : Nat := (e.memories.map TokenMemory.size).foldr (· + ·) 0

def memory (e : Engine γ) (rule : Nat) : TokenMemory := (e.memories[rule]?).getD .empty

def setMemory (e : Engine γ) (rule : Nat) (m : TokenMemory) : Engine γ :=
  { e with memories := e.memories.set rule m }

/-- The triples that an activation has matched, in the order of its rule's patterns. -/
def matchedBy (e : Engine γ) (a : Activation) : List Triple := (e.memory a.rule).triples a.token

def firing? (e : Engine γ) (a : Activation) : Option Firing :=
  (e.memory a.rule).firings.get? a.token

def setFiring (e : Engine γ) (a : Activation) (firing : Firing) : Engine γ :=
  e.setMemory a.rule ((e.memory a.rule).setFiring a.token firing)

/-- Puts an activation on the agenda. -/
def schedule (e : Engine γ) (a : Activation) : Engine γ :=
  { e.setFiring a .pending with agenda := e.agenda ++ [a] }

def queue (e : Engine γ) (event : Event) : Engine γ := { e with events := e.events ++ [event] }

def supporters (e : Engine γ) (t : Triple) : List Activation :=
  match e.support.get? t with
  | some firings => firings.members
  | none => []

end Engine

/-- Work on an engine; a failure leaves what was done before it. -/
abbrev Work (γ α : Type) := EStateM Failure (Engine γ) α

namespace Work

variable {γ α : Type}

def attempt (result : Except Failure α) : Work γ α :=
  match result with
  | .ok a => pure a
  | .error cause => throw cause

/-- An access to a graph. -/
def access (result : Except GraphError α) : Work γ α := attempt (Failure.ofGraph result)

def count (change : EngineStats → EngineStats) : Work γ Unit :=
  modify fun e => { e with stats := change e.stats }

variable [Graph γ]

def isVisible (t : Triple) : Work γ Bool := do access ((← get).view.contains t)

def inBase (t : Triple) : Work γ Bool := do access (Graph.contains (← get).base t)

end Work

end Entailment
