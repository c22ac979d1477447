import Entailment.Builtin.Basic
import Entailment.Builtin.Value

/-!
# Comparing and classifying

Builtins that test their arguments and touch nothing else.  A comparison needs two
ground arguments, and an order test two values that have an order.
-/

namespace Entailment

namespace Builtin

def comparison (name : String) (test : Node → Node → Bool) : Builtin :=
  ofTest name 2 fun args =>
    match args with
    | [a, b] => a.isGround && b.isGround && test a b
    | _ => false

def ordering (name : String) (accept : Ordering → Bool) : Builtin :=
  comparison name fun a b => (a.compareValues? b).any accept

def kindTest (name : String) (test : Node → Bool) : Builtin :=
  ofTest name 1 fun args =>
    match args with
    | a :: _ => test a
    | [] => false

/-- The literal in the first argument has the datatype in the second. -/
def datatypeTest : Builtin :=
  ofTest "isDType" 2 fun args =>
    match args with
    | [.literal l, .uri datatype] => l.datatype == datatype
    | _ => false

def comparisons : List Builtin :=
  [ comparison "equal" Node.sameValue,
    comparison "notEqual" fun a b => !a.sameValue b,
    ordering "lessThan" Ordering.isLT,
    ordering "greaterThan" Ordering.isGT,
    ordering "le" Ordering.isLE,
    ordering "ge" Ordering.isGE ]

def kindTests : List Builtin :=
  [ kindTest "bound" Node.isGround,
    kindTest "unbound" fun n => !n.isGround,
    kindTest "isLiteral" Node.isLiteral,
    kindTest "notLiteral" fun n => n.isGround && !n.isLiteral,
    kindTest "isBNode" Node.isBlank,
    kindTest "notBNode" fun n => n.isGround && !n.isBlank,
    kindTest "isFunctor" Node.isFunctor,
    kindTest "notFunctor" fun n => n.isGround && !n.isFunctor,
    datatypeTest ]

end Builtin

end Entailment
