import Entailment.Binding.Bindings

/-!
# Unifying a goal with a rule head

Goal and head have variables of their own.  Both get slots in one environment, the
head's first.  A `Unifier` gives the head's part of it, in which every slot is a
value, unbound, or an alias of the first slot that it is equal to, and the values
of the goal's variables.
-/

namespace Entailment

structure Unifier where
  bindings : Bindings
  headSize : Nat

namespace Unifier

/-- The unifier of a goal with a head that has the given number of variables. -/
def ofGoal (goal head : Triple) (headSize : Nat) : Option Unifier :=
  let slots := Bindings.empty (headSize + goal.varBound)
  match slots.unifyTriple head (goal.map (Node.shift headSize)) with
  | (true, bindings) => some ⟨bindings, headSize⟩
  | (false, _) => none

/-- The first slot, below `i`, whose aliases end where `last` is. -/
def representative? (u : Unifier) (last i : Nat) : Option Nat :=
  (List.range i).find? fun j =>
    match u.bindings.deref j with
    | some (.unbound slot) => slot == last
    | _ => false

def headSlot (u : Unifier) (i : Nat) : Slot :=
  match u.bindings.deref i with
  | some (.ground _) =>
    match u.bindings.value i with
    | some n => .ground n
    | none => .unbound
  | some (.unbound last) =>
    match u.representative? last i with
    | some j => .aliasOf j
    | none => .unbound
  | none => .unbound

def headBindings (u : Unifier) : Bindings := ⟨(List.range u.headSize).map u.headSlot⟩

/-- The value of a node of the goal. -/
def goalValue (u : Unifier) (n : Node) : Option Node := u.bindings.resolve (n.shift u.headSize)

end Unifier

/-- The head's environment after unification with a goal. -/
def Bindings.unifyHead (goal head : Triple) (headSize : Nat) : Option Bindings :=
  (Unifier.ofGoal goal head headSize).map Unifier.headBindings

end Entailment
