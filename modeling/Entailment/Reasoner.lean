import Entailment.Backward.Solver
import Entailment.Config
import Entailment.Forward.Run

/-!
# Reasoners

A reasoner is a rule set compiled for its configuration.  Bound to a base graph it
gives an inference graph: the base and everything that the rules conclude, kept up to
date as triples come and go.  Forward conclusions are stored; backward ones are found
when they are asked for.
-/

namespace Entailment

structure Reasoner where
  rules : RuleSet
  registry : Registry
  config : Config
  network : Network
  solver : Solver
deriving Inhabited

namespace Reasoner

/-- The rules that run forward, and those that are asked backward. -/
def assign (rules : RuleSet) (mode : Mode) : Except Failure (List Rule × List Rule) :=
  match mode with
  | .forward =>
    match rules.rules.find? Rule.isBackward with
    | some r => .error (.config (.backwardInForwardMode r.label))
    | none => .ok (rules.rules, [])
  | .backward =>
    .ok ([], rules.rules.map fun r => if r.isBackward then r else r.withDirection .backward)
  | .hybrid => .ok (rules.byDirection .forward, rules.byDirection .backward)

def compile (rules : RuleSet) (registry : Registry) (config : Config) :
    Except Failure Reasoner := do
  let (forward, backward) ← assign rules config.mode
  let network ← Network.compile forward registry
  let solver ← Solver.ofRules backward registry config.maxBackwardDepth
  return { rules, registry, config, network, solver }

/-- Checks the configuration and compiles the rules for it. -/
def make (rules : RuleSet) (registry : Registry) (config : Config) : Except Failure Reasoner := do
  config.validate
  compile rules registry config

/-- Adds a rule and compiles anew, and tells so, unless a similar rule is there. -/
def addRule (r : Reasoner) (rule : Rule) : Except Failure (Bool × Reasoner) :=
  match r.rules.add rule with
  | (false, _) => .ok (false, r)
  | (true, rules) => do
    let r ← compile rules r.registry r.config
    return (true, r)

def describe (r : Reasoner) : String :=
  "Reasoner \x7b rules: " ++ toString r.rules.size ++ ", config: " ++ r.config.describe ++ " \x7d"

end Reasoner

structure InferenceStats where
  mode : Mode
  baseTriples : Nat
  deductions : Nat
  /-- Conclusions with a recorded derivation. -/
  derivations : Nat
  backwardRules : Nat
  state : EngineState
  engine : EngineStats

/-- A base graph with the conclusions of a reasoner. -/
structure InferenceGraph (γ : Type) where
  engine : Engine γ
  solver : Solver
  mode : Mode

namespace InferenceGraph

variable {γ α : Type}

def base (g : InferenceGraph γ) : γ := g.engine.base

def world (g : InferenceGraph γ) : World := g.engine.world

def withEngine (g : InferenceGraph γ) (e : Engine γ) : InferenceGraph γ := { g with engine := e }

def withWorld (g : InferenceGraph γ) (world : World) : InferenceGraph γ :=
  g.withEngine { g.engine with world }

def isClosed (g : InferenceGraph γ) : Bool := g.engine.isClosed

def close (g : InferenceGraph γ) : InferenceGraph γ := g.withEngine g.engine.close

def setLogging (g : InferenceGraph γ) (on : Bool) : InferenceGraph γ :=
  g.withEngine (g.engine.setLogging on)

/-- The recorded derivations of a triple. -/
def derivationsOf (g : InferenceGraph γ) (t : Triple) : List Derivation := g.engine.derivations.get t

/-- The proofs of a triple as an outline. -/
def explain (g : InferenceGraph γ) (t : Triple) : String := g.engine.derivations.trace t

def describe (g : InferenceGraph γ) : String :=
  "InfGraph \x7b mode: " ++ g.mode.title ++ ", state: " ++ g.engine.state.title ++
    ", deductions: " ++ toString g.engine.deductions.size ++ " \x7d"

variable [Graph γ]

def operate (g : InferenceGraph γ) (operation : Engine γ → Outcome (Engine γ) α) :
    Outcome (InferenceGraph γ) α :=
  (operation g.engine).mapState g.withEngine

def add (budget : Nat) (t : Triple) (g : InferenceGraph γ) : Outcome (InferenceGraph γ) Bool :=
  g.operate (Engine.add budget t)

def delete (budget : Nat) (t : Triple) (g : InferenceGraph γ) : Outcome (InferenceGraph γ) Bool :=
  g.operate (Engine.delete budget t)

/-- Computes the conclusions from nothing. -/
def reset (budget : Nat) (g : InferenceGraph γ) : Outcome (InferenceGraph γ) Unit :=
  g.operate (Engine.recompute budget)

/-- Takes another base graph in place of the one it has, which is the answer. -/
def rebind (budget : Nat) (base : γ) (g : InferenceGraph γ) : Outcome (InferenceGraph γ) γ :=
  if g.isClosed then .failed .closed g
  else
    ((g.withEngine { g.engine with base }).reset budget).map fun _ => g.base

/-- A pattern as a goal, with wildcards at its open positions. -/
def goal (p : TriplePattern) : Triple :=
  ⟨p.subject.getD .any, p.predicate.getD .any, p.object.getD .any⟩

/-- The triples of a pattern in the base, among the deductions, and by backward rules. -/
def visible (g : InferenceGraph γ) (p : TriplePattern) : Except Failure (List Triple) × World :=
  match g.engine.view.find p with
  | .error cause => (.error (.graph cause), g.world)
  | .ok stored =>
    if g.solver.isEmpty then (.ok stored, g.world)
    else
      let (answers, world) := g.solver.solve g.engine.view (goal p) g.world
      (answers.map fun proved => (OrderedSet.ofList (stored ++ proved)).members, world)

/-- The triples of a pattern whose predicate is not hidden. -/
def find (p : TriplePattern) (g : InferenceGraph γ) :
    Except Failure (List Triple) × InferenceGraph γ :=
  if g.isClosed then (.error .closed, g)
  else
    let (found, world) := g.visible p
    (found.map fun ts => ts.filter fun t => !g.engine.isHidden t, g.withWorld world)

def contains (t : Triple) (g : InferenceGraph γ) : Except Failure Bool × InferenceGraph γ :=
  let (found, g) := g.find (.ofTriple t)
  (found.map (·.contains t), g)

def stats (g : InferenceGraph γ) : InferenceStats :=
  { mode := g.mode
    baseTriples := Graph.size g.base
    deductions := g.engine.deductions.size
    derivations := g.engine.derivations.size
    backwardRules := g.solver.rules.length
    state := g.engine.state
    engine := g.engine.stats }

end InferenceGraph

namespace Reasoner

variable {γ : Type} [Graph γ]

/-- The inference graph over a base, with its conclusions computed. -/
def bind (r : Reasoner) (budget : Nat) (base : γ) (world : World) :
    Outcome (InferenceGraph γ) Unit :=
  let engine : Engine γ :=
    { Engine.start r.network base with
      logging := r.config.derivationLogging
      traceFirings := r.config.traceFirings
      maxRechecks := r.config.maxRecheckRounds
      world }
  InferenceGraph.reset budget ⟨engine, r.solver, r.config.mode⟩

end Reasoner

end Entailment
