import Entailment.Proofs.Forward.Foundation

/-!
# The severity of failures

A failure is called fatal if it leaves an engine that cannot be used.  Work of an engine
fails in two ways only: an invariant is broken, or the base does not answer.  A request
that fails leaves the engine open, a run that fails closes it, whatever the cause.  So an
engine cannot be used after exactly those failures that are fatal and those of the base
that arise in a run; only the latter are not called fatal.
-/

namespace Entailment

namespace Failure

/-- A failure that work of an engine can come to: a broken invariant, or an access to the
base that failed. -/
def OfWork (cause : Failure) : Prop :=
  (∃ violation, cause = .invariant violation) ∨ ∃ error, cause = .graph error

theorem ofWork_invariant (violation : Violation) : OfWork (.invariant violation) :=
  Or.inl ⟨violation, rfl⟩

theorem ofGraph_eq_error {α : Type} {access : Except GraphError α} {cause : Failure}
    (h : ofGraph access = .error cause) : ∃ error, cause = .graph error := by
  cases access with
  | ok a => cases h
  | error error =>
      cases h
      exact ⟨error, rfl⟩

/-- Of these failures the broken invariants are fatal. -/
theorem OfWork.isFatal_iff {cause : Failure} (h : cause.OfWork) :
    cause.isFatal = true ↔ ¬ ∃ error, cause = .graph error := by
  rcases h with ⟨violation, rfl⟩ | ⟨error, rfl⟩
  · simp [isFatal]
  · simp [isFatal]

end Failure

/-! ## What work fails with -/

namespace CompiledRule

theorem unifyToken_eq_error {c : CompiledRule} {pairs : List ((Nat × Triple) × Triple)}
    {b : Bindings} {cause : Failure} (h : c.unifyToken pairs b = .error cause) :
    ∃ violation, cause = .invariant violation := by
  induction pairs generalizing b with
  | nil => cases h
  | cons pair pairs ih =>
      rw [unifyToken] at h
      split at h
      · exact ih h
      · cases h
        exact ⟨_, rfl⟩

theorem bindings_eq_error {c : CompiledRule} {token : List Triple} {cause : Failure}
    (h : c.bindings token = .error cause) : ∃ violation, cause = .invariant violation := by
  unfold bindings at h
  split at h
  · exact unifyToken_eq_error h
  · cases h
    exact ⟨_, rfl⟩

end CompiledRule

namespace Work

variable {γ α β : Type} {kind : Failure → Prop}

/-! ## Accesses -/

theorem failsOnly_access (result : Except GraphError α) :
    FailsOnly Failure.OfWork (access result : Work γ α) :=
  failsOnly_attempt fun _ h => Or.inr (Failure.ofGraph_eq_error h)

theorem failsOnly_bindings (c : CompiledRule) (token : List Triple) :
    FailsOnly Failure.OfWork (attempt (c.bindings token) : Work γ Bindings) :=
  failsOnly_attempt fun _ h => Or.inl (CompiledRule.bindings_eq_error h)

theorem failsOnly_retractDeduction (t : Triple) :
    FailsOnly Failure.OfWork (retractDeduction t : Work γ Bool) :=
  failsOnly_bind failsOnly_get fun _ => failsOnly_bind (failsOnly_access _) fun _ =>
    failsOnly_bind (failsOnly_set _) fun _ => failsOnly_pure _

variable [Graph γ]

theorem failsOnly_inBase (t : Triple) : FailsOnly Failure.OfWork (inBase t : Work γ Bool) :=
  failsOnly_bind failsOnly_get fun _ => failsOnly_access _

theorem failsOnly_isVisible (t : Triple) : FailsOnly Failure.OfWork (isVisible t : Work γ Bool) :=
  failsOnly_bind failsOnly_get fun _ => failsOnly_access _

/-! ## Support -/

theorem failsOnly_withdraw (t : Triple) : FailsOnly Failure.OfWork (withdraw t : Work γ Unit) :=
  failsOnly_bind (failsOnly_retractDeduction t) fun _ =>
    failsOnly_ite (failsOnly_bind (failsOnly_inBase t) fun _ =>
      failsOnly_ite (failsOnly_pure _) (failsOnly_modify _)) (failsOnly_pure _)

theorem failsOnly_leaveSupport (e : Engine γ) (t : Triple) (firings : OrderedSet Activation) :
    FailsOnly Failure.OfWork (leaveSupport e t firings) :=
  failsOnly_ite
    (failsOnly_bind (failsOnly_modify _) fun _ =>
      failsOnly_ite (failsOnly_pure _) (failsOnly_withdraw t))
    (failsOnly_bind (failsOnly_modify _) fun _ => failsOnly_modify _)

theorem failsOnly_unsupport (a : Activation) (c : CompiledRule) (matched : List (Option Triple))
    (t : Triple) : FailsOnly Failure.OfWork (unsupport a c matched t : Work γ Unit) := by
  rw [unsupport_eq]
  refine failsOnly_bind failsOnly_get fun e => ?_
  have hleft := failsOnly_leaveSupport e t
  split
  · exact failsOnly_throw (Failure.ofWork_invariant _)
  · have hcause := Failure.ofWork_invariant (.notSupporting c.label t)
    refine failsOnly_ite (failsOnly_bind (failsOnly_throw hcause) fun _ => ?_) ?_
    all_goals exact failsOnly_ite (failsOnly_bind (failsOnly_set _) fun _ => hleft _) (hleft _)

theorem failsOnly_retract (a : Activation) (triples : List Triple) (firing : Firing) :
    FailsOnly Failure.OfWork (retract a triples firing : Work γ Unit) := by
  refine failsOnly_bind failsOnly_get fun e => ?_
  split
  · exact failsOnly_bind (failsOnly_count _) fun _ => failsOnly_bind (failsOnly_modify _) fun _ =>
      failsOnly_forM (failsOnly_unsupport a _ _) _
  · exact failsOnly_pure _

theorem failsOnly_retractTokens (t : Triple) (rule : Nat) :
    FailsOnly Failure.OfWork (retractTokens t rule : Work γ Unit) :=
  failsOnly_bind failsOnly_get fun _ => failsOnly_bind (failsOnly_set _) fun _ =>
    failsOnly_forM (fun _ => failsOnly_retract _ _ _) _

/-- Whenever the search fails, an access to the base has failed. -/
def FailsOnGraph (search : StateT (List Triple) (Except Failure) α) : Prop :=
  ∀ known cause, search known = .error cause → ∃ error, cause = .graph error

omit [Graph γ] in
theorem failsOnGraph_pure (a : α) :
    FailsOnGraph (pure a : StateT (List Triple) (Except Failure) α) :=
  fun _ _ h => nomatch h

omit [Graph γ] in
theorem failsOnGraph_bind {search : StateT (List Triple) (Except Failure) β}
    {next : β → StateT (List Triple) (Except Failure) α} (hsearch : FailsOnGraph search)
    (hnext : ∀ b, FailsOnGraph (next b)) : FailsOnGraph (search >>= next) := by
  intro known cause h
  change (search known >>= fun found => next found.1 found.2) = _ at h
  cases hmid : search known with
  | ok found =>
      rw [hmid] at h
      exact hnext found.1 found.2 cause h
  | error cause₁ =>
      rw [hmid] at h
      cases h
      exact hsearch known cause hmid

omit [Graph γ] in
theorem failsOnGraph_anyM {search : β → StateT (List Triple) (Except Failure) Bool}
    (hsearch : ∀ b, FailsOnGraph (search b)) (bs : List β) : FailsOnGraph (bs.anyM search) := by
  induction bs with
  | nil => exact failsOnGraph_pure false
  | cons b bs ih =>
      refine failsOnGraph_bind (hsearch b) fun found => ?_
      cases found with
      | true => exact failsOnGraph_pure true
      | false => exact ih

omit [Graph γ] in
theorem failsOnGraph_allM {search : β → StateT (List Triple) (Except Failure) Bool}
    (hsearch : ∀ b, FailsOnGraph (search b)) (bs : List β) : FailsOnGraph (bs.allM search) := by
  induction bs with
  | nil => exact failsOnGraph_pure true
  | cons b bs ih =>
      refine failsOnGraph_bind (hsearch b) fun found => ?_
      cases found with
      | true => exact ih
      | false => exact failsOnGraph_pure false

omit [Graph γ] in
theorem failsOnGraph_access (result : Except GraphError α) :
    FailsOnGraph (liftM (Failure.ofGraph result) : StateT (List Triple) (Except Failure) α) := by
  intro known cause h
  cases result with
  | ok a => cases h
  | error error =>
      cases h
      exact ⟨error, rfl⟩

theorem failsOnGraph_groundedWithin (e : Engine γ) (depth : Nat) (path : List Triple)
    (t : Triple) : FailsOnGraph (e.groundedWithin depth path t) := by
  induction depth generalizing path t with
  | zero => exact failsOnGraph_pure false
  | succ depth ih =>
      rw [Engine.groundedWithin]
      refine failsOnGraph_bind (fun _ _ h => by cases h) fun found => ?_
      split
      · exact failsOnGraph_pure true
      · refine failsOnGraph_bind (failsOnGraph_access _) fun held => ?_
        split
        · exact failsOnGraph_pure true
        · split
          · exact failsOnGraph_pure false
          · refine failsOnGraph_bind (failsOnGraph_anyM (fun a =>
              failsOnGraph_allM (fun m => ih _ m) _) _) fun found => ?_
            split
            · exact failsOnGraph_bind (fun _ _ h => by cases h) fun _ => failsOnGraph_pure _
            · exact failsOnGraph_pure _

/-- The search for the ground of a triple fails only where the base does. -/
theorem isGrounded_eq_error {e : Engine γ} {t : Triple} {cause : Failure}
    (h : e.isGrounded t = .error cause) : ∃ error, cause = .graph error := by
  change (Prod.fst <$> e.groundedWithin (e.deductions.size + 1) [] t []) = _ at h
  cases hsearch : e.groundedWithin (e.deductions.size + 1) [] t [] with
  | ok found =>
      rw [hsearch] at h
      cases h
  | error cause₁ =>
      rw [hsearch] at h
      cases h
      exact failsOnGraph_groundedWithin e _ _ t _ _ hsearch

theorem failsOnly_checkSupport (t : Triple) :
    FailsOnly Failure.OfWork (checkSupport t : Work γ Unit) := by
  refine failsOnly_bind failsOnly_get fun e => failsOnly_ite (failsOnly_pure _) ?_
  refine failsOnly_bind (failsOnly_inBase t) fun _ => failsOnly_ite (failsOnly_pure _) ?_
  refine failsOnly_bind failsOnly_get fun e => failsOnly_ite (failsOnly_pure _) ?_
  refine failsOnly_bind (failsOnly_count _) fun _ => failsOnly_bind failsOnly_get fun e => ?_
  refine failsOnly_bind (failsOnly_attempt fun _ h => Or.inr (isGrounded_eq_error h)) fun _ => ?_
  exact failsOnly_ite (failsOnly_pure _)
    (failsOnly_bind (failsOnly_count _) fun _ => failsOnly_withdraw t)

/-! ## Matching -/

omit [Graph γ] in
theorem failsOnly_store (c : CompiledRule) (s : Subscriber) (m : PartialMatch) :
    FailsOnly kind (store c s m : Work γ (Option TokenId)) := by
  refine failsOnly_bind failsOnly_get fun e => ?_
  simp only
  split
  · exact failsOnly_pure _
  · exact failsOnly_bind (failsOnly_set _) fun _ => failsOnly_pure _

omit [Graph γ] in
theorem failsOnly_complete (c : CompiledRule) (s : Subscriber) (m : PartialMatch) :
    FailsOnly kind (complete c s m : Work γ Unit) := by
  refine failsOnly_bind (failsOnly_store c s m) fun id => ?_
  split
  · exact failsOnly_pure _
  · exact failsOnly_modify _

theorem failsOnly_extend (c : CompiledRule) (s : Subscriber) (next : Triple) (m : PartialMatch) :
    FailsOnly Failure.OfWork (extend c s next m : Work γ (List PartialMatch)) := by
  refine failsOnly_bind (failsOnly_store c s m) fun id => ?_
  split
  · exact failsOnly_pure _
  · exact failsOnly_bind failsOnly_get fun _ => failsOnly_bind (failsOnly_access _) fun _ =>
      failsOnly_pure _

theorem failsOnly_grow (c : CompiledRule) (rule : Nat) (following : List Triple) (level : Nat)
    (found : List PartialMatch) :
    FailsOnly Failure.OfWork (grow c rule level following found : Work γ Unit) := by
  induction following generalizing level found with
  | nil => exact failsOnly_forM (failsOnly_complete c _) _
  | cons next following ih =>
      exact failsOnly_bind (failsOnly_mapM (failsOnly_extend c _ next) _) fun _ => ih _ _

theorem failsOnly_activate (t : Triple) (s : Subscriber) :
    FailsOnly Failure.OfWork (activate t s : Work γ Unit) := by
  refine failsOnly_bind failsOnly_get fun e => ?_
  split
  · exact failsOnly_pure _
  · split
    · exact failsOnly_pure _
    · exact failsOnly_grow _ _ _ _ _

theorem failsOnly_propagate (event : Event) :
    FailsOnly Failure.OfWork (propagate event : Work γ Unit) := by
  cases event with
  | added t =>
      refine failsOnly_bind (failsOnly_isVisible t) fun _ => failsOnly_ite ?_ (failsOnly_pure _)
      exact failsOnly_bind (failsOnly_count _) fun _ => failsOnly_bind failsOnly_get fun _ =>
        failsOnly_forM (failsOnly_activate t) _
  | deleted t =>
      refine failsOnly_bind (failsOnly_isVisible t) fun _ => failsOnly_ite (failsOnly_pure _) ?_
      exact failsOnly_bind (failsOnly_count _) fun _ => failsOnly_bind failsOnly_get fun _ =>
        failsOnly_forM (failsOnly_retractTokens t) _

/-! ## Firing -/

theorem failsOnly_assert (t : Triple) : FailsOnly Failure.OfWork (assert t : Work γ Unit) :=
  failsOnly_bind failsOnly_get fun _ => failsOnly_bind (failsOnly_access _) fun _ =>
    failsOnly_bind (failsOnly_set _) fun _ =>
      failsOnly_ite (failsOnly_bind (failsOnly_inBase t) fun _ =>
        failsOnly_ite (failsOnly_pure _) (failsOnly_modify _)) (failsOnly_pure _)

theorem failsOnly_removeEverywhere (announced : Bool) (t : Triple) :
    FailsOnly Failure.OfWork (removeEverywhere announced t : Work γ Unit) :=
  failsOnly_bind failsOnly_get fun _ => failsOnly_bind (failsOnly_access _) fun _ =>
    failsOnly_bind (failsOnly_set _) fun _ =>
      failsOnly_bind (failsOnly_retractDeduction t) fun _ =>
        failsOnly_bind (failsOnly_modify _) fun _ =>
          failsOnly_ite (failsOnly_modify _) (failsOnly_pure _)

theorem failsOnly_settleFiring (a : Activation) (c : CompiledRule)
    (matched : List (Option Triple)) (conclusions : List Triple) (effects : Effects) :
    FailsOnly Failure.OfWork (settleFiring a c matched conclusions effects : Work γ Unit) := by
  refine failsOnly_bind (failsOnly_count _) fun _ => failsOnly_bind (failsOnly_modify _) fun _ => ?_
  refine failsOnly_bind (failsOnly_modify _) fun _ => failsOnly_bind (failsOnly_modify _) fun _ => ?_
  refine failsOnly_bind (failsOnly_forM (fun t => failsOnly_bind (failsOnly_modify _) fun _ =>
    failsOnly_assert t) _) fun _ => ?_
  exact failsOnly_bind (failsOnly_forM (failsOnly_removeEverywhere true) _) fun _ =>
    failsOnly_forM (failsOnly_removeEverywhere false) _

theorem failsOnly_fire (a : Activation) : FailsOnly Failure.OfWork (fire a : Work γ Unit) := by
  refine failsOnly_bind failsOnly_get fun e => ?_
  split
  · refine failsOnly_bind (failsOnly_bindings _ _) fun bindings => ?_
    refine failsOnly_bind (failsOnly_set _) fun _ => ?_
    split
    · exact failsOnly_bind (failsOnly_count _) fun _ => failsOnly_modify _
    · exact failsOnly_settleFiring a _ _ _ _
  · exact failsOnly_pure _

theorem failsOnly_stillHolds (c : CompiledRule) (triples : List Triple) :
    FailsOnly Failure.OfWork (stillHolds c triples : Work γ Bool) :=
  failsOnly_bind failsOnly_get fun _ => failsOnly_bind (failsOnly_bindings _ _) fun _ =>
    failsOnly_bind (failsOnly_set _) fun _ => failsOnly_pure _

theorem failsOnly_reconsider (c : CompiledRule) (a : Activation) (fired : Bool) :
    FailsOnly Failure.OfWork (reconsider c a fired : Work γ Bool) := by
  refine failsOnly_bind failsOnly_get fun e =>
    failsOnly_bind (failsOnly_stillHolds c _) fun held => failsOnly_ite ?_ ?_
  · exact failsOnly_bind (failsOnly_modify _) fun _ =>
      failsOnly_bind (failsOnly_retract a _ _) fun _ => failsOnly_pure _
  · exact failsOnly_ite (failsOnly_bind (failsOnly_modify _) fun _ => failsOnly_pure _)
      (failsOnly_pure _)

theorem failsOnly_recheck : FailsOnly Failure.OfWork (recheck : Work γ Bool) :=
  failsOnly_bind failsOnly_get fun _ => failsOnly_bind (failsOnly_mapM (fun _ =>
    failsOnly_bind failsOnly_get fun _ =>
      failsOnly_bind (failsOnly_mapM (fun _ => failsOnly_reconsider _ _ _) _)
        fun _ => failsOnly_pure _) _) fun _ => failsOnly_pure _

/-- Every failure of a piece of work is a broken invariant or one of the base. -/
theorem failsOnly_step (rechecks : Nat) :
    FailsOnly Failure.OfWork (step rechecks : Work γ (Option Nat)) := by
  refine failsOnly_bind failsOnly_get fun e => ?_
  split
  · exact failsOnly_bind (failsOnly_set _) fun _ =>
      failsOnly_bind (failsOnly_propagate _) fun _ => failsOnly_pure _
  · exact failsOnly_bind (failsOnly_set _) fun _ =>
      failsOnly_bind (failsOnly_fire _) fun _ => failsOnly_pure _
  · exact failsOnly_bind (failsOnly_set _) fun _ =>
      failsOnly_bind (failsOnly_checkSupport _) fun _ => failsOnly_pure _
  · exact failsOnly_ite (failsOnly_pure _) (failsOnly_bind (failsOnly_count _) fun _ =>
      failsOnly_bind failsOnly_recheck fun _ => failsOnly_ite (failsOnly_pure _) (failsOnly_pure _))

end Work

/-! ## Requests and runs -/

namespace Operation

variable {γ : Type} [Graph γ] {e e' : Engine γ} {o : Operation} {budget : Nat} {cause : Failure}

/-- The request of the operation is granted, so that a run follows. -/
def Granted (o : Operation) (e : Engine γ) : Prop := ∃ e', o.request e = .ok () e'

/-- Whatever is asked of the engine, now and later, is refused since it is closed. -/
def Unusable (e : Engine γ) : Prop :=
  e.isClosed = true ∧ ∀ o : Operation, o ≠ .close → ∀ budget,
    o.perform budget e = .failed .closed e

theorem unusable_iff : Unusable e ↔ e.isClosed = true := by
  constructor
  · exact And.left
  · intro hclosed
    refine ⟨hclosed, fun o ho budget => ?_⟩
    rw [perform_eq ho, Engine.operate_of_closed hclosed]

/-- A run that fails has broken an invariant or was failed by the base, and it closes the
engine. -/
theorem run_eq_failed {rechecks : Nat} (h : e.run budget rechecks = .failed cause e') :
    cause.OfWork ∧ ∃ e₁ : Engine γ, e' = e₁.close := by
  induction budget generalizing rechecks e with
  | zero => cases h
  | succ budget ih =>
      rw [Engine.run] at h
      cases hstep : Work.step rechecks e with
      | ok answer e₁ =>
          rw [hstep] at h
          cases answer with
          | some more => exact ih h
          | none => cases h
      | error cause₁ e₁ =>
          rw [hstep] at h
          cases h
          exact ⟨Work.failsOnly_step rechecks e cause e₁ hstep, e₁, rfl⟩

/-- An operation on an open engine that fails is refused by a graph, which leaves the
engine open, or it fails in its run, which closes the engine. -/
theorem perform_eq_failed (hopen : e.isClosed = false)
    (h : o.perform budget e = .failed cause e') :
    (¬ o.Granted e ∧ (∃ error, cause = .graph error) ∧ e'.isClosed = false) ∨
      (o.Granted e ∧ cause.OfWork ∧ e'.isClosed = true) := by
  have ho : o ≠ .close := by
    rintro rfl
    cases h
  rw [perform_eq ho] at h
  cases hrequest : o.request e with
  | error cause₁ e₁ =>
      rw [Engine.operate_of_error hopen hrequest] at h
      cases h
      obtain ⟨hgraph, hstill⟩ := request_eq_error hrequest
      have hstillOpen : e'.isClosed = false := by rwa [Engine.isClosed, hstill]
      refine Or.inl ⟨?_, hgraph, hstillOpen⟩
      rintro ⟨e₂, hgranted⟩
      rw [hrequest] at hgranted
      cases hgranted
  | ok _ e₁ =>
      rw [Engine.operate_of_ok hopen hrequest] at h
      cases hrun : Engine.run budget 0 e₁ with
      | failed cause₁ e₂ =>
          rw [hrun] at h
          cases h
          obtain ⟨hcause, e₃, rfl⟩ := run_eq_failed hrun
          exact Or.inr ⟨⟨e₁, hrequest⟩, hcause, rfl⟩
      | done _ e₂ =>
          rw [hrun] at h
          cases h
      | unfinished =>
          rw [hrun] at h
          cases h

/-- After a failure an open engine cannot be used exactly if the failure is fatal or has
come from the base in a run; and if it can be used, a graph has refused the request. -/
theorem unusable_iff_of_failed (hopen : e.isClosed = false)
    (h : o.perform budget e = .failed cause e') :
    (Unusable e' ↔ cause.isFatal = true ∨ (∃ error, cause = .graph error) ∧ o.Granted e) ∧
      (¬ Unusable e' → ∃ error, cause = .graph error) := by
  rw [unusable_iff]
  rcases perform_eq_failed hopen h with ⟨hrefused, ⟨error, rfl⟩, hstill⟩ | ⟨hgranted, hcause, hclosed⟩
  · refine ⟨?_, fun _ => ⟨error, rfl⟩⟩
    rw [hstill]
    exact ⟨fun h => (nomatch h), fun h => h.elim (fun h => (nomatch h)) fun h => absurd h.2 hrefused⟩
  · refine ⟨⟨fun _ => ?_, fun _ => hclosed⟩, fun hnot => absurd hclosed hnot⟩
    rw [hcause.isFatal_iff]
    by_cases hgraph : ∃ error, cause = .graph error
    · exact Or.inr ⟨hgraph, hgranted⟩
    · exact Or.inl hgraph

/-! ## An engine whose base does not answer -/

/-- Two steps in a row, the second by a predicate of its own. -/
def joining : Rule :=
  .make none
    [.pattern ⟨.var ⟨"x", 0⟩, .uri "p", .var ⟨"y", 1⟩⟩,
      .pattern ⟨.var ⟨"y", 1⟩, .uri "q", .var ⟨"z", 2⟩⟩]
    [.pattern ⟨.var ⟨"x", 0⟩, .uri "r", .var ⟨"z", 2⟩⟩] .forward

def joiningNetwork : Network :=
  ((Network.compile [joining] Registry.standard).toOption).getD default

/-- The engine over a base that answers nothing that is asked by the predicate `q`. -/
def guardedEngine : Engine GuardedGraph :=
  .start joiningNetwork { graph := .empty, forbidden := some (.uri "q") }

def firstStep : Triple := ⟨.uri "a", .uri "p", .uri "b"⟩

/-- The triple is added to the base, and the search for its extensions fails. -/
def firstAdded : Outcome (Engine GuardedGraph) Unit :=
  (Operation.add firstStep).perform 20 guardedEngine

theorem unusable_iff_of_failed_guarded : ∃ cause e', firstAdded = .failed cause e' ∧
    (Unusable e' ↔ cause.isFatal = true ∨
      (∃ error, cause = .graph error) ∧ (Operation.add firstStep).Granted guardedEngine) ∧
    (¬ Unusable e' → ∃ error, cause = .graph error) := by
  have hfailed : firstAdded.cause?.isSome = true := by decide +kernel
  obtain ⟨cause, e', h, _⟩ := Outcome.exists_eq_failed hfailed
  exact ⟨cause, e', h, unusable_iff_of_failed rfl h⟩

/-- The engine cannot be used any more after a failure that is not called fatal. -/
theorem not_unusable_iff_isFatal_guarded :
    Network.compile [joining] Registry.standard = .ok joiningNetwork ∧
      guardedEngine.isClosed = false ∧
      ¬ ∀ cause e', firstAdded = .failed cause e' → (Unusable e' ↔ cause.isFatal = true) := by
  have hfailed : firstAdded.cause?.isSome = true := by decide +kernel
  have hmild : (firstAdded.cause?.all fun cause => !cause.isFatal) = true := by decide +kernel
  have hclosed : (firstAdded.state?.all Engine.isClosed) = true := by decide +kernel
  refine ⟨ok_getD_of_isSome (by decide +kernel), rfl, fun hclaim => ?_⟩
  obtain ⟨cause, e', h, hcause⟩ := Outcome.exists_eq_failed hfailed
  rw [hcause] at hmild
  rw [h] at hclosed
  have hfatal := (hclaim cause e' h).1 (unusable_iff.2 hclosed)
  change (!cause.isFatal) = true at hmild
  rw [hfatal] at hmild
  cases hmild

/-- A triple that the base refuses leaves the engine as it was. -/
example : ((Operation.add ⟨.uri "b", .uri "q", .uri "c"⟩).perform 20 guardedEngine).state?.all
    Engine.isClosed = false := by decide +kernel

end Operation

end Entailment
