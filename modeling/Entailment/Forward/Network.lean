import Entailment.Rule.Basic
import Entailment.Term.Shape

/-!
# The match network

Forward rules compiled for matching.  Body patterns of one shape share a test, which
lists its subscribers: a rule, and the level at which the pattern stands among the
rule's patterns.  Each level is joined with the levels before it on the variables
that it shares with them.
-/

namespace Entailment

/-- For each pattern, which of its variables occur before it. -/
def sharedVariables : List Nat → List Triple → List (List Nat)
  | _, [] => []
  | met, t :: rest =>
    t.varIndexes.filter met.contains :: sharedVariables (met ++ t.varIndexes) rest

structure CompiledRule where
  rule : Rule
  /-- The patterns of the body with their positions, one for each level. -/
  patterns : List (Nat × Triple)
  /-- The variables on which each level is joined with those before it. -/
  joins : List (List Nat)
  calls : List Call
  /-- Asks for something that more triples can make false. -/
  nonMonotonic : Bool
  /-- Removes triples when it fires. -/
  destructive : Bool
deriving Inhabited

namespace CompiledRule

def isNonMonotonic (registry : Registry) (c : Call) : Bool :=
  match registry.get? c.name with
  | some b => !b.monotonic
  | none => false

def ofRule (registry : Registry) (rule : Rule) : CompiledRule :=
  let calls := rule.calls.map Prod.snd
  { rule
    patterns := rule.patterns
    joins := sharedVariables [] (rule.patterns.map Prod.snd)
    calls
    nonMonotonic := calls.any (isNonMonotonic registry)
    destructive := (rule.head.filterMap Clause.call?).any (isNonMonotonic registry) }

def label (c : CompiledRule) : String := c.rule.label

def levels (c : CompiledRule) : Nat := c.patterns.length

def isMonotonic (c : CompiledRule) : Bool := !c.nonMonotonic && !c.destructive

/-- The matched triples at the positions of their patterns. -/
def matched (c : CompiledRule) (token : List Triple) : List (Option Triple) :=
  (c.patterns.zip token).foldl (fun found (pattern, fact) => found.set pattern.1 (some fact))
    (List.replicate c.rule.body.length none)

def unifyToken (c : CompiledRule) : List ((Nat × Triple) × Triple) → Bindings →
    Except Failure Bindings
  | [], b => .ok b
  | ((_, pattern), fact) :: rest, b =>
    match b.matching? pattern fact with
    | some b => c.unifyToken rest b
    | none => .error (.invariant (.tokenMismatch fact pattern c.label))

/-- The bindings that a complete token stands for. -/
def bindings (c : CompiledRule) (token : List Triple) : Except Failure Bindings :=
  if token.length = c.levels then
    c.unifyToken (c.patterns.zip token) (.empty c.rule.numVars)
  else .error (.invariant (.tokenLength token.length c.label c.levels))

/-- What a level is joined on: the values of its shared variables, a wildcard for one
that has none.  The first level and those past the last share nothing. -/
def joinKey (c : CompiledRule) (level : Nat) (b : Bindings) : List Node :=
  ((c.joins[level]?).getD []).map fun i => (b.value i).getD .any

end CompiledRule

/-- A rule and one of its levels. -/
structure Subscriber where
  rule : Nat
  level : Nat
deriving DecidableEq, Inhabited

namespace Subscriber

/-- By rule, then by level. -/
def precedes (s t : Subscriber) : Bool :=
  s.rule < t.rule || (s.rule == t.rule && s.level ≤ t.level)

end Subscriber

/-- A pattern up to the choice of variables, and those that wait for it. -/
structure SharedPattern where
  shape : Triple
  varCount : Nat
  subscribers : List Subscriber
deriving Inhabited

namespace SharedPattern

def accepts (p : SharedPattern) (t : Triple) : Bool :=
  ((Bindings.empty p.varCount).matching? p.shape t).isSome

def subscribe (s : Subscriber) (p : SharedPattern) : SharedPattern :=
  { p with subscribers := p.subscribers ++ [s] }

end SharedPattern

structure Network where
  registry : Registry
  rules : List CompiledRule := []
  patterns : List SharedPattern := []
  /-- The patterns with a given predicate. -/
  byPredicate : OrderedMap Node (List Nat) := .empty
  /-- The patterns with an open predicate. -/
  openPredicate : List Nat := []
deriving Inhabited

namespace Network

def isMonotonic (n : Network) : Bool := n.rules.all CompiledRule.isMonotonic

/-- Adds a pattern that no other shares yet. -/
def addPattern (n : Network) (p : SharedPattern) : Network :=
  let place := n.patterns.length
  let predicate := p.shape.predicate
  let n := { n with patterns := n.patterns ++ [p] }
  if predicate.isVariable || predicate.isAny then
    { n with openPredicate := n.openPredicate ++ [place] }
  else { n with byPredicate := n.byPredicate.alter predicate (· ++ [place]) }

def subscribe (n : Network) (pattern : Triple) (s : Subscriber) : Network :=
  match n.patterns.findIdx? fun p => p.shape == pattern.shape with
  | some place => { n with patterns := n.patterns.modify place (·.subscribe s) }
  | none => n.addPattern ⟨pattern.shape, pattern.varCount, [s]⟩

def addRule (n : Network) (rule : Rule) : Except Failure Network := do
  if rule.isBackward then throw (.config (.backwardInNetwork rule.label))
  rule.validate n.registry
  let compiled := CompiledRule.ofRule n.registry rule
  let place := n.rules.length
  let n := { n with rules := n.rules ++ [compiled] }
  return compiled.patterns.zipIdx.foldl
    (fun n ((_, pattern), level) => n.subscribe pattern ⟨place, level⟩) n

/-- Checks and compiles forward rules, in their order. -/
def compile (rules : List Rule) (registry : Registry) : Except Failure Network :=
  rules.foldlM addRule { registry }

def rule? (n : Network) (i : Nat) : Option CompiledRule := n.rules[i]?

/-- The places of the patterns that can have the predicate. -/
def candidates (n : Network) (predicate : Node) : List Nat :=
  (n.byPredicate.get? predicate).getD [] ++ n.openPredicate

/-- The subscribers whose pattern matches the triple, by rule and level. -/
def activations (n : Network) (t : Triple) : List Subscriber :=
  let patterns := (n.candidates t.predicate).filterMap fun place => n.patterns[place]?
  let subscribers := (patterns.filter (·.accepts t)).flatMap SharedPattern.subscribers
  (subscribers.mergeSort Subscriber.precedes).eraseDups

end Network

end Entailment
