import Entailment.Binding.Unifier
import Entailment.Rule.Evaluation
import Entailment.Term.Shape

/-!
# Answers on demand

A solver answers a goal from stored triples and from backward rules, whose bodies are
solved from left to right.  A goal that comes again on its own proof path, up to the
choice of variables, is not expanded: its answers so far stand in a table, and the
question is repeated until the table no longer grows.
-/

namespace Entailment

/-- A backward rule with its one conclusion. -/
structure GoalRule where
  rule : Rule
  head : Triple
deriving Inhabited

namespace GoalRule

def ofRule (registry : Registry) (rule : Rule) : Except Failure GoalRule := do
  if !rule.isBackward then throw (.config (.forwardInSearch rule.label))
  rule.validate registry
  match rule.head with
  | [.pattern head] => return ⟨rule, head⟩
  | _ => throw (rule.invalid .severalHeads)

end GoalRule

structure Solver where
  rules : List GoalRule
  registry : Registry
  maxDepth : Nat
deriving Inhabited

/-- The goals that are being expanded, and the answers to each goal so far, both by
shape. -/
structure SearchState where
  path : List Triple := []
  table : OrderedMap Triple (OrderedSet Triple) := .empty
  world : World

namespace SearchState

/-- The number of answers in the table. -/
def tabled (st : SearchState) : Nat := (st.table.values.map OrderedSet.size).foldr (· + ·) 0

def answers (st : SearchState) (shape : Triple) : List Triple :=
  match st.table.get? shape with
  | some known => known.members
  | none => []

end SearchState

/-- A search; a failure ends it. -/
abbrev Search (α : Type) := EStateM Failure SearchState α

namespace Triple

/-- The fact is an instance of the goal. -/
def covers (goal fact : Triple) : Bool := (Unifier.ofGoal goal fact 0).isSome

/-- The triple with its variables numbered by name. -/
def numbered (t : Triple) : Triple :=
  (t.traverse Numbering.number Numbering.keepAny []).1

end Triple

namespace Solver

def defaultDepth : Nat := 100

variable {γ : Type} [Graph γ]

/-- Checks and prepares backward rules, in their order. -/
def ofRules (rules : List Rule) (registry : Registry) (maxDepth : Nat) :
    Except Failure Solver := do
  return { rules := ← rules.mapM (GoalRule.ofRule registry), registry, maxDepth }

def isEmpty (s : Solver) : Bool := s.rules.isEmpty

/-- A clause of a body that is still to be solved, and what has been matched. -/
structure Derived where
  bindings : Bindings
  matched : List (Option Triple)

/-- Asks a call.  One that is not safe gives nothing. -/
def ask (s : Solver) (view : View γ) (rule : Rule) (call : Call) (d : Derived) :
    Search (Option Derived) := do
  let refused := ((s.registry.get? call.name).map fun b => !b.safe).getD false
  if refused then return none
  let ctx := CallContext.ofView view rule.label d.matched true
  let st ← get
  let (held, after) := call.holds s.registry ctx { bindings := d.bindings, world := st.world }
  set { st with world := after.world }
  return if held then some { d with bindings := after.bindings } else none

/-- Solves the rest of a body by the given way to prove goals, and adds to the answers
an instance of the head for each solution. -/
def solveBody (s : Solver) (view : View γ) (prove : Triple → Search (OrderedSet Triple))
    (r : GoalRule) : (position : Nat) → List Clause → Derived → OrderedSet Triple →
    Search (OrderedSet Triple)
  | _, [], d, answers => do
    let answer := d.bindings.partialInstantiate r.head
    return if answer.isGround then answers.insert answer else answers
  | position, .pattern pattern :: rest, d, answers => do
    let facts ← prove (d.bindings.partialInstantiate pattern)
    facts.members.foldlM (fun answers fact =>
      match d.bindings.matching? pattern fact with
      | none => pure answers
      | some bindings =>
        solveBody s view prove r (position + 1) rest
          ⟨bindings, d.matched.set position (some fact)⟩ answers) answers
  | position, .call call :: rest, d, answers => do
    match ← s.ask view r.rule call d with
    | none => return answers
    | some d => solveBody s view prove r (position + 1) rest d answers

/-- Adds what a rule concludes about a goal. -/
def expand (s : Solver) (view : View γ) (prove : Triple → Search (OrderedSet Triple))
    (goal : Triple) (answers : OrderedSet Triple) (r : GoalRule) : Search (OrderedSet Triple) :=
  match Bindings.unifyHead goal r.head r.rule.numVars with
  | none => return answers
  | some bindings =>
    let unmatched := List.replicate r.rule.body.length none
    s.solveBody view prove r 0 r.rule.body ⟨bindings, unmatched⟩ answers

/-- The answers to a goal with a proof of less than the given depth. -/
def prove (s : Solver) (view : View γ) : (depth : Nat) → Triple → Search (OrderedSet Triple)
  | 0, _ => throw (.maxDepthExceeded s.maxDepth)
  | depth + 1, goal => do
    let found ←
      match view.find (.ofTriple goal) with
      | .ok found => pure found
      | .error cause => throw (.graph cause)
    let stored := OrderedSet.ofList (found.filter goal.covers)
    let shape := goal.shape
    let st ← get
    if st.path.contains shape then
      return stored.insertAll ((st.answers shape).filter goal.covers)
    set { st with path := shape :: st.path }
    let answers ← s.rules.foldlM (s.expand view (s.prove view depth) goal) stored
    modify fun st =>
      { st with
        path := st.path.tail
        table := st.table.alter shape (·.insertAll answers.members) }
    return answers

/-- Asks until the table no longer grows, and at most the given number of times. -/
def repeatUntilStable (s : Solver) (view : View γ) (goal : Triple) :
    (rounds : Nat) → Search (OrderedSet Triple)
  | 0 => throw (.maxDepthExceeded s.maxDepth)
  | rounds + 1 => do
    let known := (← get).tabled
    let answers ← s.prove view (s.maxDepth + 1) goal
    if (← get).tabled = known then return answers
    s.repeatUntilStable view goal rounds

/-- The ground instances of a goal that are visible or follow from the rules, and the
world after the search. -/
def solve (s : Solver) (view : View γ) (goal : Triple) (world : World) :
    Except Failure (List Triple) × World :=
  match s.repeatUntilStable view goal.numbered (s.maxDepth + 1) { world } with
  | .ok answers st => (.ok answers.members, st.world)
  | .error cause st => (.error cause, st.world)

end Solver

end Entailment
