import Entailment.Failure

/-!
# Outcomes of work with a budget

Work that takes steps as long as there are any may be done, may fail, or may need
more steps than it was given.  Done or failed, it leaves a state.
-/

namespace Entailment

inductive Outcome (σ α : Type) where
  | done (value : α) (state : σ)
  | failed (cause : Failure) (state : σ)
  | unfinished

namespace Outcome

variable {σ τ α β : Type}

def map (f : α → β) : Outcome σ α → Outcome σ β
  | .done a s => .done (f a) s
  | .failed cause s => .failed cause s
  | .unfinished => .unfinished

def mapState (f : σ → τ) : Outcome σ α → Outcome τ α
  | .done a s => .done a (f s)
  | .failed cause s => .failed cause (f s)
  | .unfinished => .unfinished

end Outcome

end Entailment
