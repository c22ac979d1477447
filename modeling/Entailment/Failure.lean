import Entailment.Graph.Basic

/-!
# Failures

Everything that can go wrong while rules are compiled or run, as causes with one
wording each.  A failure is fatal when the derived state can no longer be trusted.
-/

namespace Entailment

/-- A configuration or combination of rules that cannot be used. -/
inductive ConfigProblem where
  | zeroDepth
  | backwardInNetwork (label : String)
  | forwardInSearch (label : String)
  | backwardInForwardMode (label : String)

namespace ConfigProblem

def message : ConfigProblem → String
  | .zeroDepth => "max_backward_depth must be at least 1"
  | .backwardInNetwork label =>
    "backward rule " ++ label ++ " cannot be compiled into the forward network"
  | .forwardInSearch label => "forward rule " ++ label ++ " cannot be evaluated backward"
  | .backwardInForwardMode label => "backward rule " ++ label ++ " in a forward-only reasoner"

end ConfigProblem

/-- A fault of one rule's shape. -/
inductive RuleProblem where
  | noHead
  | nestedFunctor (clause : String)
  | backwardHeadCall (call : String)
  | severalHeads

namespace RuleProblem

def message : RuleProblem → String
  | .noHead => "rule has no head"
  | .nestedFunctor clause => "functors may not nest: " ++ clause
  | .backwardHeadCall call => "backward head cannot run " ++ call
  | .severalHeads => "backward rules have exactly one head triple"

end RuleProblem

/-- A broken invariant of environments, token memory or support. -/
inductive Violation where
  | slotOutOfRange (index size : Nat)
  | unmatchedUnwind
  | unmatchedCommit
  | tokenLength (found : Nat) (label : String) (patterns : Nat)
  | tokenMismatch (fact pattern : Triple) (label : String)
  | noSupport (conclusion : Triple)
  | notSupporting (label : String) (conclusion : Triple)

namespace Violation

def message : Violation → String
  | .slotOutOfRange index size =>
    "slot " ++ toString index ++ " out of range for environment of size " ++ toString size
  | .unmatchedUnwind => "unwind without matching push"
  | .unmatchedCommit => "commit without matching push"
  | .tokenLength found label patterns =>
    "token of length " ++ toString found ++ " for rule " ++ label ++ " with " ++
      toString patterns ++ " patterns"
  | .tokenMismatch fact pattern label =>
    "token triple " ++ fact.text ++ " does not match " ++ pattern.text ++ " in rule " ++ label
  | .noSupport conclusion => "no support recorded for " ++ conclusion.text
  | .notSupporting label conclusion =>
    "firing of " ++ label ++ " not among the supporters of " ++ conclusion.text

end Violation

inductive Failure where
  | config (problem : ConfigProblem)
  | invalidRule (label : String) (problem : RuleProblem)
  | unknownBuiltin (name label : String)
  | arityMismatch (builtin : String) (expected found : Nat)
  | unsafeBuiltin (name label : String)
  | maxDepthExceeded (depth : Nat)
  | invariant (violation : Violation)
  | closed
  | graph (error : GraphError)
  | serialization

namespace Failure

/-- The engine cannot be used after such a failure. -/
def isFatal : Failure → Bool
  | .invariant _ => true
  | .closed => true
  | _ => false

def message : Failure → String
  | .config problem => "Configuration error: " ++ problem.message
  | .invalidRule label problem => "Invalid rule " ++ label ++ ": " ++ problem.message
  | .unknownBuiltin name label => "Unknown builtin " ++ name ++ " in rule " ++ label
  | .arityMismatch builtin expected found =>
    "Builtin " ++ builtin ++ " expects " ++ toString expected ++ " arguments, found " ++
      toString found
  | .unsafeBuiltin name label =>
    "Builtin " ++ name ++ " has side effects and cannot run in backward rule " ++ label
  | .maxDepthExceeded depth => "Max inference depth exceeded: " ++ toString depth
  | .invariant violation => "Internal invariant violated: " ++ violation.message
  | .closed => "Inference graph is closed"
  | .graph error => "Graph error: " ++ error.message
  | .serialization => "Serialization error"

/-- An access to a graph, its error taken for a failure. -/
def ofGraph {α : Type} (access : Except GraphError α) : Except Failure α :=
  access.mapError .graph

end Failure

end Entailment
