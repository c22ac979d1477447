import Entailment.Failure

/-!
# Binding environments

An environment gives each variable of a rule a slot, which is unbound, holds a
term, or is an alias of another slot.  `resolve` follows aliases to the ground
term of a node, `unify` makes two nodes equal by binding slots, and
`instantiate` completes a pattern, with a fresh blank node for every variable
that has no value.
-/

namespace Entailment

/-- Where the fresh blank nodes come from.  Given nodes have smaller numbers, nodes
that are named by terms have larger ones. -/
structure BlankSupply where
  used : Nat := 0
deriving Inhabited

namespace BlankSupply

def firstGenerated : Nat := 1000000

/-- The number from which on blank nodes are named by terms. -/
def firstNamed : Nat := Nat.pow 2 63

def fresh (supply : BlankSupply) : Node × BlankSupply :=
  (.blank (firstGenerated + supply.used), ⟨supply.used + 1⟩)

end BlankSupply

inductive Slot where
  | unbound
  | ground (value : Node)
  | aliasOf (slot : Nat)
deriving Inhabited

namespace Slot

def size : Slot → Nat
  | .ground n => n.size
  | _ => 0

end Slot

/-- Where the aliases of a slot lead. -/
inductive SlotEnd where
  | ground (value : Node)
  | unbound (slot : Nat)

structure Bindings where
  slots : List Slot
deriving Inhabited

namespace Bindings

def empty (size : Nat) : Bindings := ⟨List.replicate size .unbound⟩

def length (b : Bindings) : Nat := b.slots.length

def isEmpty (b : Bindings) : Bool := b.slots.isEmpty

def slot? (b : Bindings) (i : Nat) : Option Slot := b.slots[i]?

def set (b : Bindings) (i : Nat) (s : Slot) : Bindings := ⟨b.slots.set i s⟩

/-- Follows at most the given number of links. -/
def derefWithin (b : Bindings) : Nat → Nat → Option SlotEnd
  | 0, _ => none
  | links + 1, i =>
    match b.slot? i with
    | none => none
    | some .unbound => some (.unbound i)
    | some (.ground n) => some (.ground n)
    | some (.aliasOf j) => b.derefWithin links j

/-- The end of a slot's aliases; a chain that visits every slot and goes on has none. -/
def deref (b : Bindings) (i : Nat) : Option SlotEnd := b.derefWithin (b.length + 1) i

/-- The value of a functor's argument: functors do not nest, so a functor is none. -/
def resolveArg (b : Bindings) : Node → Option Node
  | .var v =>
    match b.deref v.index with
    | some (.ground n) => if n.isFunctor then none else some n
    | _ => none
  | .any => none
  | .functor _ _ => none
  | n => some n

/-- The value of a node that is not a variable. -/
def resolveTerm (b : Bindings) : Node → Option Node
  | .var _ => none
  | .any => none
  | .functor name args => (args.mapM b.resolveArg).map (.functor name)
  | n => some n

/-- The ground term that a node stands for, if its variables determine one. -/
def resolve (b : Bindings) : Node → Option Node
  | .var v =>
    match b.deref v.index with
    | some (.ground n) => b.resolveTerm n
    | _ => none
  | n => b.resolveTerm n

def value (b : Bindings) (i : Nat) : Option Node := b.resolve (.var ⟨"", i⟩)

def values (b : Bindings) : List (Option Node) := (List.range b.length).map b.value

/-- A step that compares two nodes, and may bind slots whether or not they agree. -/
abbrev Comparison := Bindings → Node → Node → Bool × Bindings

/-- Runs a comparison over pairs up to the first that fails. -/
def compareAll (compare : Comparison) : Bindings → List (Node × Node) → Bool × Bindings
  | b, [] => (true, b)
  | b, (x, y) :: rest =>
    match compare b x y with
    | (true, b) => compareAll compare b rest
    | (false, b) => (false, b)

/-- Gives a slot a value: a bound slot compares its own with it, an unbound one
takes it, or becomes an alias of the variable's end. -/
def bindSlotBy (compare : Comparison) (b : Bindings) (i : Nat) (value : Node) :
    Bool × Bindings :=
  match b.deref i with
  | none => (false, b)
  | some (.ground n) => compare b n value
  | some (.unbound target) =>
    match value with
    | .var v =>
      match b.deref v.index with
      | none => (false, b)
      | some (.ground n) => (true, b.set target (.ground n))
      | some (.unbound other) =>
        if other = target then (true, b) else (true, b.set target (.aliasOf other))
    | .any => (true, b)
    | n => (true, b.set target (.ground n))

/-- Unification to a bounded depth. -/
def unifyWithin : Nat → Comparison
  | 0, b, _, _ => (false, b)
  | _ + 1, b, .any, _ => (true, b)
  | _ + 1, b, _, .any => (true, b)
  | depth + 1, b, .var v, n => bindSlotBy (unifyWithin depth) b v.index n
  | depth + 1, b, n, .var v => bindSlotBy (unifyWithin depth) b v.index n
  | depth + 1, b, .functor f as, .functor g bs =>
    if f = g ∧ as.length = bs.length then compareAll (unifyWithin depth) b (as.zip bs)
    else (false, b)
  | _ + 1, b, m, n => (m == n, b)

/-- No unification that ends goes deeper: on the way down a pair of subterms comes
again only after a slot has been bound. -/
def depthBound (b : Bindings) (m n : Node) : Nat :=
  let subterms := (b.slots.map Slot.size).foldr (· + ·) 0 + m.size + n.size
  subterms * subterms * (b.length + 1) + 1

/-- Makes two nodes equal, a wildcard being equal to anything. -/
def unify : Comparison := fun b m n => unifyWithin (b.depthBound m n) b m n

def bindSlot (b : Bindings) (i : Nat) (value : Node) : Bool × Bindings :=
  bindSlotBy unify b i value

/-- Binds a variable, or compares what is none. -/
def bind (b : Bindings) (target value : Node) : Bool × Bindings :=
  match target with
  | .var v => b.bindSlot v.index value
  | n => b.unify n value

def bind? (b : Bindings) (i : Nat) (value : Node) : Except Failure (Bool × Bindings) :=
  if i < b.length then .ok (b.bindSlot i value)
  else .error (.invariant (.slotOutOfRange i b.length))

/-- Makes the positions of two triples equal, in order, up to the first that fails. -/
def unifyTriple (b : Bindings) (pattern fact : Triple) : Bool × Bindings :=
  compareAll unify b (pattern.nodes.zip fact.nodes)

/-- The bindings under which the pattern is the fact. -/
def matching? (b : Bindings) (pattern fact : Triple) : Option Bindings :=
  match b.unifyTriple pattern fact with
  | (true, b) => some b
  | (false, _) => none

/-- The value of a variable, which is bound to a fresh blank node if it has none. -/
def complete (st : Bindings × BlankSupply) (v : Var) : Node × Bindings × BlankSupply :=
  match st.1.resolve (.var v) with
  | some n => (n, st)
  | none =>
    let (blank, supply) := st.2.fresh
    (blank, (st.1.bindSlot v.index blank).2, supply)

def freshBlank (st : Bindings × BlankSupply) : Node × Bindings × BlankSupply :=
  let (blank, supply) := st.2.fresh
  (blank, st.1, supply)

/-- The pattern with every variable completed and a fresh blank node for every wildcard. -/
def instantiate (b : Bindings) (supply : BlankSupply) (pattern : Triple) :
    Triple × Bindings × BlankSupply :=
  pattern.traverse complete freshBlank (b, supply)

def valueOrSelf (b : Bindings) (v : Var) : Node := (b.resolve (.var v)).getD (.var v)

/-- The node with those variables replaced that have a value. -/
def partialNode (b : Bindings) (n : Node) : Node := n.subst b.valueOrSelf

def partialInstantiate (b : Bindings) (pattern : Triple) : Triple := pattern.map b.partialNode

end Bindings

end Entailment
