import Entailment.Graph.View
import Entailment.Rule.Basic

/-!
# Evaluation of a rule

Once the patterns of a rule are matched, its calls are asked in order and its head is
carried out.  The calls look at the visible graph; a lookup that fails finds nothing.
-/

namespace Entailment

namespace CallContext

variable {γ : Type} [Graph γ]

/-- The context of a call that sees a view.  Only a call that is not speculative has
its requests kept. -/
def ofView (v : View γ) (label : String) (matched : List (Option Triple))
    (speculative : Bool) : CallContext :=
  { find := fun pattern =>
      match v.find pattern with
      | .ok found => found
      | .error _ => []
    contains := fun t =>
      match v.contains t with
      | .ok held => held
      | .error _ => false
    matched
    label
    speculative
    keepsEffects := !speculative }

end CallContext

namespace Call

/-- Asks a call without running what is not safe, which counts as holding. -/
def holdsSpeculatively (c : Call) (registry : Registry) (ctx : CallContext)
    (st : CallState) : Bool × CallState :=
  match registry.get? c.name with
  | none => (false, st)
  | some b => if b.safe then c.holds registry ctx st else (true, st)

end Call

/-- Asks calls in order, up to the first that fails. -/
def allHold (ask : Call → CallState → Bool × CallState) :
    List Call → CallState → Bool × CallState
  | [], st => (true, st)
  | c :: rest, st =>
    match ask c st with
    | (true, st) => allHold ask rest st
    | (false, st) => (false, st)

/-- Carries out a head clause: a pattern gives a conclusion, a call acts. -/
def Clause.carryOut (registry : Registry) (ctx : CallContext)
    (drawn : OrderedSet Triple × CallState) : Clause → OrderedSet Triple × CallState
  | .pattern t =>
    let (conclusion, st) := drawn.2.instantiate t
    (drawn.1.insert conclusion, st)
  | .call c => (drawn.1, c.act registry ctx drawn.2)

/-- The conclusions of a head, each once. -/
def Rule.conclude (r : Rule) (registry : Registry) (ctx : CallContext) (st : CallState) :
    List Triple × CallState :=
  let (drawn, st) := r.head.foldl (Clause.carryOut registry ctx) (.empty, st)
  (drawn.members, st)

end Entailment
