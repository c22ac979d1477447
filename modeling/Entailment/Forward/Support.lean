import Entailment.Forward.Engine

/-!
# Support

A conclusion is held up by the firings that drew it.  Without any it is withdrawn.
One that loses some but not all of them becomes a suspect: it stays only if it is
grounded, that is, if its remaining firings lead back to triples of the base or to
committed conclusions, and not only around to itself.
-/

namespace Entailment

/-- One firing less that hides the predicate. -/
def unhide (hidden : OrderedMap Node Nat) (predicate : Node) : OrderedMap Node Nat :=
  match hidden.get? predicate with
  | none => hidden
  | some n => if n ≤ 1 then hidden.erase predicate else hidden.insert predicate (n - 1)

/-- One firing more that hides the predicate. -/
def hideOnce (hidden : OrderedMap Node Nat) (predicate : Node) : OrderedMap Node Nat :=
  hidden.alter predicate (· + 1)

namespace Work

variable {γ : Type}

/-- Puts a triple among those to be checked. -/
def suspect (t : Triple) : Work γ Unit :=
  modify fun e => { e with suspects := e.suspects.insert t }

/-- Takes a triple out of the deductions, and tells whether it was one. -/
def retractDeduction (t : Triple) : Work γ Bool := do
  let e ← get
  let (removed, deductions) ← access (e.deductions.delete t)
  set { e with deductions }
  return removed

variable [Graph γ]

/-- Takes a conclusion back; if the base does not hold it, it has left the view. -/
def withdraw (t : Triple) : Work γ Unit := do
  if ← retractDeduction t then
    unless ← inBase t do
      modify fun e => e.queue (.deleted t)

/-- Takes one firing away from a conclusion. -/
def unsupport (a : Activation) (c : CompiledRule) (matched : List (Option Triple))
    (t : Triple) : Work γ Unit := do
  let e ← get
  match e.support.get? t with
  | none => throw (.invariant (.noSupport t))
  | some firings =>
    if !firings.contains a then throw (.invariant (.notSupporting c.label t))
    let firings := firings.erase a
    if e.logging then
      set { e with derivations := (e.derivations.remove ⟨t, c.rule, matched⟩).2 }
    if firings.isEmpty then
      modify fun e => { e with support := e.support.erase t }
      unless e.committed.contains t do withdraw t
    else
      modify fun e => { e with support := e.support.insert t firings }
      suspect t

/-- Takes back what a firing has concluded and hidden, unless it was committed. -/
def retract (a : Activation) (triples : List Triple) (firing : Firing) : Work γ Unit := do
  match firing, (← get).network.rule? a.rule with
  | .fired conclusions hidden false, some c =>
    count fun s => { s with retractions := s.retractions + 1 }
    modify fun e => { e with hidden := hidden.foldl unhide e.hidden }
    conclusions.forM (unsupport a c (c.matched triples))
  | _, _ => return

/-- Drops the tokens of a rule that hold a triple, and with them their firings. -/
def retractTokens (t : Triple) (rule : Nat) : Work γ Unit := do
  let e ← get
  let (broken, memory) := (e.memory rule).removeHolding t
  set (e.setMemory rule memory)
  broken.forM fun b => retract ⟨rule, b.id⟩ b.triples b.firing

end Work

namespace Engine

variable {γ : Type} [Graph γ]

/-- Whether a triple has a proof from the base and committed conclusions that does not
pass through the path.  What was found grounded before is the state. -/
def groundedWithin (e : Engine γ) :
    (depth : Nat) → (path : List Triple) → Triple → StateT (List Triple) (Except Failure) Bool
  | 0, _, _ => return false
  | depth + 1, path, t => do
    if (← get).contains t || e.committed.contains t then return true
    if ← Failure.ofGraph (Graph.contains e.base t) then return true
    if path.contains t || !e.deductions.contains t then return false
    let found ← (e.supporters t).anyM fun a =>
      (e.matchedBy a).allM (e.groundedWithin depth (t :: path))
    if found then modify (t :: ·)
    return found

/-- A path through different deductions ends before it has used them all up. -/
def isGrounded (e : Engine γ) (t : Triple) : Except Failure Bool :=
  (e.groundedWithin (e.deductions.size + 1) [] t).run' []

end Engine

namespace Work

variable {γ : Type} [Graph γ]

/-- Withdraws a conclusion that is not grounded.  One in the base, one that is
committed and one that is no deduction any more need no check. -/
def checkSupport (t : Triple) : Work γ Unit := do
  if (← get).committed.contains t then return
  if ← inBase t then return
  if !(← get).deductions.contains t then return
  count fun s => { s with supportChecks := s.supportChecks + 1 }
  unless ← attempt ((← get).isGrounded t) do
    count fun s => { s with unfounded := s.unfounded + 1 }
    withdraw t

end Work

end Entailment
