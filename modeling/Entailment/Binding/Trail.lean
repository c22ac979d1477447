import Entailment.Binding.Bindings

/-!
# Environments with backtracking

A trail is a current environment over the saved ones that it can go back to.
-/

namespace Entailment

structure Trail where
  current : Bindings
  saved : List Bindings := []
deriving Inhabited

namespace Trail

def empty (size : Nat) : Trail := ⟨.empty size, []⟩

def push (t : Trail) : Trail := { t with saved := t.current :: t.saved }

/-- Goes back to the environment saved last. -/
def unwind (t : Trail) : Except Failure Trail :=
  match t.saved with
  | [] => .error (.invariant .unmatchedUnwind)
  | b :: rest => .ok ⟨b, rest⟩

/-- Forgets the environment saved last and keeps the current one. -/
def commit (t : Trail) : Except Failure Trail :=
  match t.saved with
  | [] => .error (.invariant .unmatchedCommit)
  | _ :: rest => .ok { t with saved := rest }

def depth (t : Trail) : Nat := t.saved.length

/-- An operation on the current environment. -/
def update {α : Type} (t : Trail) (step : Bindings → α × Bindings) : α × Trail :=
  let (result, current) := step t.current
  (result, { t with current })

def unifyTriple (t : Trail) (pattern fact : Triple) : Bool × Trail :=
  t.update fun b => b.unifyTriple pattern fact

end Trail

end Entailment
