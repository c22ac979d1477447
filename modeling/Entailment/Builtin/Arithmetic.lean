import Entailment.Builtin.Basic
import Entailment.Builtin.Value

/-!
# Arithmetic

Integer operations are exact: a result that is no 64-bit integer is computed with
doubles instead.  A result is bound to the last argument, or compared with it by
value if it is a number already.
-/

namespace Entailment

/-- What an operation on integers comes to. -/
inductive WholeResult where
  | exact (n : Int64)
  | inexact
  | overflow

namespace WholeResult

def ofInt (n : Int) : WholeResult :=
  match Int64.checked n with
  | some m => .exact m
  | none => .inexact

/-- An integer only if the division leaves no remainder.  The smallest integer has
no quotient by minus one. -/
def quotient (a b : Int64) : WholeResult :=
  if b.toInt = 0 then .inexact
  else if b.toInt = -1 ∧ a = Int64.minValue then .overflow
  else if a.toInt.tmod b.toInt = 0 then ofInt (a.toInt.tdiv b.toInt)
  else .inexact

end WholeResult

namespace Double

/-- The quotient, unless the divisor is a zero. -/
def divided? (a b : Double) : Option Double := if b.isZero then none else some (a.div b)

end Double

namespace CallState

/-- Binds a number to a node, or compares it with the number that is there. -/
def bindNumber (st : CallState) (target : Node) (value : Numeric) : Bool × CallState :=
  match Numeric.ofNode target with
  | some existing => (existing.compare? value == some .eq, st)
  | none => st.bind target value.toNode

def bindNumber? (st : CallState) (target : Node) (value : Option Numeric) : Bool × CallState :=
  match value with
  | some n => st.bindNumber target n
  | none => (false, st)

end CallState

namespace Builtin

/-- An operation on two numbers, on integers first and on doubles if that is inexact. -/
def arithmetic (name : String) (whole : Int64 → Int64 → WholeResult)
    (real : Double → Double → Option Double) : Builtin :=
  { name
    arity := some 3
    body := fun _ args st =>
      match args with
      | [a, b, target] =>
        match Numeric.ofNode a, Numeric.ofNode b with
        | some x, some y =>
          let approximate := (real x.toDouble y.toDouble).map Numeric.float
          match x, y with
          | .int i, .int j =>
            match whole i j with
            | .exact n => st.bindNumber target (.int n)
            | .inexact => st.bindNumber? target approximate
            | .overflow => (false, st.overflow)
          | _, _ => st.bindNumber? target approximate
        | _, _ => (false, st)
      | _ => (false, st) }

/-- One more than a number; the largest integer has no successor. -/
def successor : Builtin :=
  { name := "addOne"
    arity := some 2
    body := fun _ args st =>
      match args with
      | [a, target] =>
        match Numeric.ofNode a with
        | some (.int n) => st.bindNumber? target ((Int64.checked (n.toInt + 1)).map .int)
        | some (.float d) => st.bindNumber target (.float (d.add Double.one))
        | none => (false, st)
      | _ => (false, st) }

/-- Binds the argument that comes first or last in the order of numbers. -/
def extremum (name : String) (takesFirst : Ordering → Bool) : Builtin :=
  { name
    arity := some 3
    body := fun _ args st =>
      match args with
      | [a, b, target] =>
        match Numeric.ofNode a, Numeric.ofNode b with
        | some x, some y =>
          match x.compare? y with
          | some order => st.bind target (if takesFirst order then a else b)
          | none => (false, st)
        | _, _ => (false, st)
      | _ => (false, st) }

def arithmetics : List Builtin :=
  [ arithmetic "sum" (fun a b => .ofInt (a.toInt + b.toInt)) fun a b => some (a.add b),
    arithmetic "difference" (fun a b => .ofInt (a.toInt - b.toInt)) fun a b => some (a.sub b),
    arithmetic "product" (fun a b => .ofInt (a.toInt * b.toInt)) fun a b => some (a.mul b),
    arithmetic "quotient" WholeResult.quotient Double.divided?,
    extremum "min" Ordering.isLE,
    extremum "max" Ordering.isGE,
    successor ]

end Builtin

end Entailment
