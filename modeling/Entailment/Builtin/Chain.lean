import Entailment.Builtin.Basic
import Entailment.Builtin.Value

/-!
# Linked lists in the graph

A list is a chain of cells, each with a first value and a rest, that ends in the
empty list.  `Chain.elements` reads the first visible value of every cell, and
fails on a chain that breaks off or comes back to a cell.
-/

namespace Entailment

def Vocabulary.first : String := "http://www.w3.org/1999/02/22-rdf-syntax-ns#first"

def Vocabulary.rest : String := "http://www.w3.org/1999/02/22-rdf-syntax-ns#rest"

def Vocabulary.nil : String := "http://www.w3.org/1999/02/22-rdf-syntax-ns#nil"

namespace Chain

/-- The first visible value of a cell's property. -/
def valueOf (ctx : CallContext) (cell : Node) (predicate : String) : Option Node :=
  ((ctx.find { subject := some cell, predicate := some (.uri predicate) }).head?).map
    Triple.object

def isEnd (cell : Node) : Bool := cell.uri? == some Vocabulary.nil

/-- The values from a cell on, in at most the given number of steps; `seen` are the
cells before it. -/
def follow (ctx : CallContext) : Nat → List Node → Node → Option (List Node)
  | 0, _, _ => none
  | steps + 1, seen, cell =>
    if isEnd cell then some []
    else if seen.contains cell then none
    else do
      let value ← valueOf ctx cell Vocabulary.first
      let next ← valueOf ctx cell Vocabulary.rest
      let values ← follow ctx steps (cell :: seen) next
      return value :: values

/-- A chain without repetition has no more cells than there are rests. -/
def stepBound (ctx : CallContext) : Nat :=
  (ctx.find { predicate := some (.uri Vocabulary.rest) }).length + 2

def elements (ctx : CallContext) (list : Node) : Option (List Node) :=
  follow ctx (stepBound ctx) [] list

end Chain

namespace Builtin

/-- Some element has the value, or none has. -/
def membership (name : String) (expected : Bool) : Builtin :=
  { name
    arity := some 2
    body := fun ctx args st =>
      match args with
      | [list, value] =>
        let answer :=
          match Chain.elements ctx list with
          | some items => items.any (fun item => item.sameValue value) == expected
          | none => false
        (value.isGround && answer, st)
      | _ => (false, st) }

def chainLength : Builtin :=
  { name := "listLength"
    arity := some 2
    body := fun ctx args st =>
      match args with
      | [list, target] =>
        match Chain.elements ctx list with
        | some items => st.bind target (.integer (Int64.ofNat items.length))
        | none => (false, st)
      | _ => (false, st) }

/-- The element at a position, counted from zero. -/
def chainEntry : Builtin :=
  { name := "listEntry"
    arity := some 3
    body := fun ctx args st =>
      match args with
      | [list, position, target] =>
        match position.position?.bind fun i => (Chain.elements ctx list).bind fun xs => xs[i]? with
        | some item => st.bind target item
        | none => (false, st)
      | _ => (false, st) }

def chains : List Builtin :=
  [membership "listContains" true, membership "listNotContains" false, chainLength, chainEntry]

end Builtin

end Entailment
