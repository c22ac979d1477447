import Entailment.Binding.Bindings
import Entailment.Text.Quoted

/-!
# Builtins

A builtin is a named procedure that a rule calls in its body, where it answers yes
or no and may bind variables, or in its head, where it acts.  It sees the graph,
the triples its activation matched and its resolved arguments; what it does is a
change of the `CallState`.  A registry finds builtins by name or by identifier.
-/

namespace Entailment

/-- What a call may look at. -/
structure CallContext where
  find : TriplePattern → List Triple
  contains : Triple → Bool
  /-- The matched triples, by position in the body. -/
  matched : List (Option Triple)
  /-- The label of the calling rule. -/
  label : String
  speculative : Bool
  /-- Whether requests to remove, drop and hide are kept. -/
  keepsEffects : Bool

namespace CallContext

def matched? (ctx : CallContext) (i : Nat) : Option Triple := (ctx.matched[i]?).join

end CallContext

/-- What calls have asked to be done when the rule has fired. -/
structure Effects where
  removed : List Triple := []
  dropped : List Triple := []
  hidden : List Node := []
deriving Inhabited

/-- What one call saw, as recorded by a probe. -/
structure Observation where
  builtin : String
  args : List Node
  label : String
  speculative : Bool
  matched : Option (List (Option Triple))
  contains : Option Bool
  found : Option (List Triple)

/-- Printed lines and observations, each in order.  An integer division that
overflows stops the whole run; `overflowed` tells that one has. -/
structure Journal where
  lines : List String := []
  observations : List Observation := []
  overflowed : Bool := false
deriving Inhabited

/-- What outlasts a call besides bindings and effects: where fresh blank nodes come
from, what has been written, and the time. -/
structure World where
  supply : BlankSupply := {}
  journal : Journal := {}
  time : String := "1970-01-01T00:00:00.000Z"
deriving Inhabited

namespace World

def record (w : World) (change : Journal → Journal) : World :=
  { w with journal := change w.journal }

def print (w : World) (line : String) : World :=
  w.record fun j => { j with lines := j.lines ++ [line] }

def observe (w : World) (o : Observation) : World :=
  w.record fun j => { j with observations := j.observations ++ [o] }

def overflow (w : World) : World := w.record fun j => { j with overflowed := true }

end World

structure CallState where
  bindings : Bindings
  effects : Effects := {}
  world : World := {}
deriving Inhabited

namespace CallState

def bind (st : CallState) (target value : Node) : Bool × CallState :=
  let (bound, bindings) := st.bindings.bind target value
  (bound, { st with bindings })

def print (st : CallState) (line : String) : CallState :=
  { st with world := st.world.print line }

def observe (st : CallState) (o : Observation) : CallState :=
  { st with world := st.world.observe o }

def overflow (st : CallState) : CallState := { st with world := st.world.overflow }

/-- A fresh blank node. -/
def freshBlank (st : CallState) : Node × CallState :=
  let (blank, supply) := st.world.supply.fresh
  (blank, { st with world := { st.world with supply } })

/-- The pattern completed in the current bindings. -/
def instantiate (st : CallState) (pattern : Triple) : Triple × CallState :=
  let (t, bindings, supply) := st.bindings.instantiate st.world.supply pattern
  (t, { st with bindings, world := { st.world with supply } })

def effect (st : CallState) (ctx : CallContext) (change : Effects → Effects) : CallState :=
  if ctx.keepsEffects then { st with effects := change st.effects } else st

/-- Asks for a triple to be removed, and the removal to be followed up. -/
def remove (st : CallState) (ctx : CallContext) (t : Triple) : CallState :=
  st.effect ctx fun e => { e with removed := e.removed ++ [t] }

/-- Asks for a triple to be removed and nothing to be followed up. -/
def drop (st : CallState) (ctx : CallContext) (t : Triple) : CallState :=
  st.effect ctx fun e => { e with dropped := e.dropped ++ [t] }

/-- Asks for a predicate to be left out of answers. -/
def hide (st : CallState) (ctx : CallContext) (predicate : Node) : CallState :=
  st.effect ctx fun e => { e with hidden := e.hidden ++ [predicate] }

end CallState

/-- A procedure: context, arguments and state give an answer and a new state. -/
abbrev Procedure := CallContext → List Node → CallState → Bool × CallState

structure Builtin where
  name : String
  /-- The number of arguments, if it is fixed. -/
  arity : Option Nat := none
  /-- Whether it may run where nothing is decided yet. -/
  safe : Bool := true
  /-- Whether its answer never changes when triples are added. -/
  monotonic : Bool := true
  body : Procedure
  head : Procedure := body

namespace Builtin

def uriNamespace : String := "http://infer.rules/builtin#"

def uri (b : Builtin) : String := uriNamespace ++ b.name

/-- A builtin that looks at nothing but its arguments. -/
def ofTest (name : String) (arity : Nat) (test : List Node → Bool) : Builtin :=
  { name, arity := some arity, body := fun _ args st => (test args, st) }

def text (b : Builtin) : String := "Builtin(" ++ b.name ++ ")"

end Builtin

structure Registry where
  byName : OrderedMap String Builtin := .empty
  byUri : OrderedMap String Builtin := .empty
deriving Inhabited

namespace Registry

def empty : Registry := {}

/-- Adds a builtin, in place of one with the same name. -/
def register (r : Registry) (b : Builtin) : Registry :=
  ⟨r.byName.insert b.name b, r.byUri.insert b.uri b⟩

def ofBuiltins (bs : List Builtin) : Registry := bs.foldl register empty

/-- The builtin with this name, or else with this identifier. -/
def get? (r : Registry) (name : String) : Option Builtin :=
  (r.byName.get? name).or (r.byUri.get? name)

def contains (r : Registry) (name : String) : Bool := (r.get? name).isSome

/-- The names in alphabetical order. -/
def names (r : Registry) : List String := r.byName.keys.mergeSort fun a b => !decide (b < a)

def size (r : Registry) : Nat := r.byName.size

def isEmpty (r : Registry) : Bool := r.byName.isEmpty

def text (r : Registry) : String :=
  "BuiltinRegistry \x7b builtins: [" ++
    ", ".intercalate (r.names.map Quoted.text) ++ "] \x7d"

end Registry

/-- A call as a rule writes it. -/
structure Call where
  name : String
  args : List Node
deriving Inhabited

namespace Call

def toNode (c : Call) : Node := .functor c.name c.args

def text (c : Call) : String := c.toNode.text

/-- The arguments with the values of their variables. -/
def resolvedArgs (c : Call) (b : Bindings) : List Node :=
  c.args.map fun a => (b.resolve a).getD a

/-- Runs the call in a body; a name that is not registered fails. -/
def holds (c : Call) (r : Registry) (ctx : CallContext) (st : CallState) : Bool × CallState :=
  match r.get? c.name with
  | none => (false, st)
  | some b => b.body ctx (c.resolvedArgs st.bindings) st

/-- Runs the call in a head. -/
def act (c : Call) (r : Registry) (ctx : CallContext) (st : CallState) : CallState :=
  match r.get? c.name with
  | none => st
  | some b => (b.head ctx (c.resolvedArgs st.bindings) st).2

end Call

end Entailment
