import Entailment.Proofs.Forward.Work

/-!
# Works side by side

Two works run side by side if from related engines they come to related engines, and give
the same answer or fail for the same cause.  The rules follow the ways in which work is put
together, as they do where only one work is looked at.
-/

namespace Entailment

namespace Work

variable {γ δ α β : Type} {R : Engine γ → Engine δ → Prop}

/-- What two works have come to is the same, with engines that are related. -/
inductive Agree (R : Engine γ → Engine δ → Prop) :
    EStateM.Result Failure (Engine γ) α → EStateM.Result Failure (Engine δ) α → Prop where
  | ok {a : α} {e : Engine γ} {e' : Engine δ} : R e e' → Agree R (.ok a e) (.ok a e')
  | error {cause : Failure} {e : Engine γ} {e' : Engine δ} :
      R e e' → Agree R (.error cause e) (.error cause e')

/-- From related engines the works come to the same. -/
def Parallel (R : Engine γ → Engine δ → Prop) (w : Work γ α) (w' : Work δ α) : Prop :=
  ∀ e e', R e e' → Agree R (w e) (w' e')

theorem parallel_pure (a : α) : Parallel R (pure a : Work γ α) (pure a : Work δ α) :=
  fun _ _ he => .ok he

theorem parallel_throw (cause : Failure) :
    Parallel R (throw cause : Work γ α) (throw cause : Work δ α) :=
  fun _ _ he => .error he

theorem parallel_set {e : Engine γ} {e' : Engine δ} (he : R e e') :
    Parallel R (set e : Work γ PUnit) (set e' : Work δ PUnit) :=
  fun _ _ _ => .ok he

theorem parallel_modify {f : Engine γ → Engine γ} {f' : Engine δ → Engine δ}
    (hf : ∀ e e', R e e' → R (f e) (f' e')) :
    Parallel R (modify f : Work γ PUnit) (modify f' : Work δ PUnit) :=
  fun e e' he => .ok (hf e e' he)

theorem parallel_attempt (result : Except Failure α) :
    Parallel R (attempt result : Work γ α) (attempt result : Work δ α) := by
  cases result with
  | ok a => exact parallel_pure a
  | error cause => exact parallel_throw cause

theorem parallel_bind {w : Work γ β} {w' : Work δ β} {f : β → Work γ α} {f' : β → Work δ α}
    (hw : Parallel R w w') (hf : ∀ b, Parallel R (f b) (f' b)) :
    Parallel R (w >>= f) (w' >>= f') := by
  intro e e' he
  change Agree R (EStateM.bind w f e) (EStateM.bind w' f' e')
  unfold EStateM.bind
  have hfirst := hw e e' he
  generalize w e = result at hfirst
  generalize w' e' = result' at hfirst
  cases hfirst with
  | ok h => exact hf _ _ _ h
  | error h => exact .error h

/-- What works go on from engines that they have looked at may use that these are related. -/
theorem parallel_get_bind {f : Engine γ → Work γ α} {f' : Engine δ → Work δ α}
    (hf : ∀ e e', R e e' → Parallel R (f e) (f' e')) : Parallel R (get >>= f) (get >>= f') :=
  fun e e' he => hf e e' he e e' he

theorem parallel_ite {c : Prop} [Decidable c] {v w : Work γ α} {v' w' : Work δ α}
    (hv : Parallel R v v') (hw : Parallel R w w') :
    Parallel R (if c then v else w) (if c then v' else w') := by
  split
  · exact hv
  · exact hw

theorem parallel_forM {w : α → Work γ PUnit} {w' : α → Work δ PUnit}
    (hw : ∀ a, Parallel R (w a) (w' a)) (as : List α) :
    Parallel R (as.forM w) (as.forM w') := by
  induction as with
  | nil => exact parallel_pure _
  | cons a as ih => exact parallel_bind (hw a) fun _ => ih

theorem parallel_mapM {w : α → Work γ β} {w' : α → Work δ β}
    (hw : ∀ a, Parallel R (w a) (w' a)) (as : List α) :
    Parallel R (as.mapM w) (as.mapM w') := by
  induction as with
  | nil => exact parallel_pure []
  | cons a as ih =>
      rw [List.mapM_cons, List.mapM_cons]
      exact parallel_bind (hw a) fun b => parallel_bind ih fun bs => parallel_pure (b :: bs)

end Work

end Entailment
