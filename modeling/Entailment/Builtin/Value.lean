import Entailment.Term.Node

/-!
# Values that builtins compare

Numbers are compared by value, integers exactly and mixed pairs as doubles; other
literals are compared when they are both texts or share a datatype.
-/

namespace Entailment

inductive Numeric where
  | int (n : Int64)
  | float (d : Double)

namespace Numeric

/-- The number of a literal, an integer if it is one. -/
def ofNode : Node → Option Numeric
  | .literal (.double d) => some (.float d)
  | .literal l => (l.integer?.map .int).or (l.number?.map .float)
  | _ => none

def toDouble : Numeric → Double
  | .int n => Double.ofInt64 n
  | .float d => d

def toNode : Numeric → Node
  | .int n => .literal (.integer n)
  | .float d => .literal (.double d)

/-- The order of two numbers; a NaN is not ordered. -/
def compare? : Numeric → Numeric → Option Ordering
  | .int a, .int b => some (compare a.toInt b.toInt)
  | a, b => a.toDouble.compare? b.toDouble

end Numeric

namespace Node

/-- The same number, or else the same term. -/
def sameValue (a b : Node) : Bool :=
  match Numeric.ofNode a, Numeric.ofNode b with
  | some x, some y => x.compare? y == some .eq
  | _, _ => a == b

def compareLiterals (x y : Literal) : Option Ordering :=
  match x.string?, y.string? with
  | some s, some t => some (compare s t)
  | _, _ =>
    if x.datatype == y.datatype then some (compare x.lexicalForm y.lexicalForm) else none

/-- The order of two values, if they have one. -/
def compareValues? (a b : Node) : Option Ordering :=
  match Numeric.ofNode a, Numeric.ofNode b with
  | some x, some y => x.compare? y
  | _, _ =>
    match a, b with
    | .literal x, .literal y => compareLiterals x y
    | _, _ => none

/-- The text of an identifier or literal. -/
def lexical? : Node → Option String
  | .uri u => some u
  | .literal l => some l.lexicalForm
  | _ => none

/-- A literal that counts positions from zero. -/
def position? : Node → Option Nat
  | .literal l => l.integer?.bind fun n => if 0 ≤ n.toInt then some n.toInt.toNat else none
  | _ => none

end Node

end Entailment
