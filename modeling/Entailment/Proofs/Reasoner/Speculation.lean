import Entailment.Builtin.Action
import Entailment.Builtin.Probe
import Entailment.Proofs.Forward.Foundation
import Entailment.Proofs.Forward.Operation
import Entailment.Proofs.Forward.Parallel
import Entailment.Proofs.Reasoner.Exchange

/-!
# What is asked before anything is decided

Activations are asked again, and goals are solved, before anything is decided, and a builtin
that is not safe must not run then.  That it does not is said here without a record of the
calls: what the builtin would do there is exchanged for something else, anything at all, and
the exchange makes no difference.  When a rule fires, its calls are not speculative, and
this is the one place where an exchange of unsafe builtins can be noticed.
-/

namespace Entailment

/-! ## Work -/

namespace Engine

variable {γ : Type} {r r' : Registry}

def withRegistry (r : Registry) (e : Engine γ) : Engine γ :=
  { e with network := e.network.withRegistry r }

/-- The engines differ in what the builtins of their networks do, and in nothing else. -/
structure Twin (r r' : Registry) (e e' : Engine γ) : Prop where
  registry_eq : e.network.registry = r
  eq_withRegistry : e' = e.withRegistry r'

theorem Twin.refl {e : Engine γ} (he : e.network.registry = r) : Twin r r' e (e.withRegistry r') :=
  ⟨he, rfl⟩

variable [Graph γ]

theorem groundedWithin_withRegistry (e : Engine γ) (depth : Nat) (path : List Triple) (t : Triple) :
    (e.withRegistry r).groundedWithin depth path t = e.groundedWithin depth path t := by
  induction depth generalizing path t with
  | zero => rfl
  | succ depth ih =>
      have hbelow : (e.withRegistry r).groundedWithin depth = e.groundedWithin depth :=
        funext fun path => funext fun t => ih path t
      simp only [groundedWithin, hbelow]
      rfl

theorem isGrounded_withRegistry (e : Engine γ) (t : Triple) :
    (e.withRegistry r).isGrounded t = e.isGrounded t := by
  rw [isGrounded, groundedWithin_withRegistry]
  rfl

end Engine

namespace Work

open Engine

variable {γ α β : Type} {asked : CallContext → Prop} {r r' : Registry}

/-- On twins the work does the same. -/
def Indifferent (r r' : Registry) (w : Work γ α) : Prop := Parallel (Twin r r') w w

theorem indifferent_get_bind {f : Engine γ → Work γ α}
    (hf : ∀ e, e.network.registry = r → Parallel (Twin r r') (f e) (f (e.withRegistry r'))) :
    Indifferent r r' (get >>= f) := by
  refine parallel_get_bind fun e e' he => ?_
  obtain ⟨hr, rfl⟩ := he
  exact hf e hr

theorem indifferent_modify {f : Engine γ → Engine γ}
    (hregistry : ∀ e, (f e).network.registry = e.network.registry)
    (hf : ∀ e, f (e.withRegistry r') = (f e).withRegistry r') :
    Indifferent r r' (modify f : Work γ PUnit) := by
  refine parallel_modify fun e e' he => ?_
  obtain ⟨hr, rfl⟩ := he
  exact ⟨(hregistry e).trans hr, hf e⟩

theorem indifferent_count (change : EngineStats → EngineStats) :
    Indifferent r r' (count change : Work γ Unit) :=
  indifferent_modify (fun _ => rfl) fun _ => rfl

theorem indifferent_queue (event : Event) :
    Indifferent r r' (modify fun e => e.queue event : Work γ PUnit) :=
  indifferent_modify (fun _ => rfl) fun _ => rfl

theorem indifferent_suspect (t : Triple) : Indifferent r r' (suspect t : Work γ Unit) :=
  indifferent_modify (fun _ => rfl) fun _ => rfl

theorem indifferent_retractDeduction (t : Triple) :
    Indifferent r r' (retractDeduction t : Work γ Bool) := by
  refine indifferent_get_bind fun e he => ?_
  refine parallel_bind (parallel_attempt _) fun removed => ?_
  exact parallel_bind (parallel_set (.refl he)) fun _ => parallel_pure _

theorem indifferent_setFiring (a : Activation) (firing : Firing) :
    Indifferent r r' (modify fun e => e.setFiring a firing : Work γ PUnit) :=
  indifferent_modify (fun _ => rfl) fun _ => rfl

theorem indifferent_schedule (a : Activation) :
    Indifferent r r' (modify fun e => e.schedule a : Work γ PUnit) :=
  indifferent_modify (fun _ => rfl) fun _ => rfl

variable [Graph γ]

theorem indifferent_inBase (t : Triple) : Indifferent r r' (inBase t : Work γ Bool) :=
  indifferent_get_bind fun _ _ => parallel_attempt _

theorem indifferent_isVisible (t : Triple) : Indifferent r r' (isVisible t : Work γ Bool) :=
  indifferent_get_bind fun _ _ => parallel_attempt _

theorem indifferent_withdraw (t : Triple) : Indifferent r r' (withdraw t : Work γ Unit) := by
  refine parallel_bind (indifferent_retractDeduction t) fun removed => ?_
  refine parallel_ite (parallel_bind (indifferent_inBase t) fun stored => ?_) (parallel_pure _)
  exact parallel_ite (parallel_pure _) (indifferent_queue _)

/-! ### Support -/

theorem indifferent_leaveSupport (e : Engine γ) (t : Triple) (firings : OrderedSet Activation) :
    Parallel (Twin r r') (leaveSupport e t firings)
      (leaveSupport (e.withRegistry r') t firings) := by
  refine parallel_ite ?_ ?_
  · refine parallel_bind (indifferent_modify (fun _ => rfl) fun _ => rfl) fun _ => ?_
    exact parallel_ite (parallel_pure _) (indifferent_withdraw t)
  · exact parallel_bind (indifferent_modify (fun _ => rfl) fun _ => rfl) fun _ =>
      indifferent_suspect t

theorem indifferent_unsupport (a : Activation) (c : CompiledRule) (matched : List (Option Triple))
    (t : Triple) : Indifferent r r' (unsupport a c matched t : Work γ Unit) := by
  rw [unsupport_eq]
  refine indifferent_get_bind fun e he => ?_
  have hsupport : (e.withRegistry r').support = e.support := rfl
  have hleft : ∀ firings, Parallel (Twin r r') (leaveSupport e t firings)
      (leaveSupport (e.withRegistry r') t firings) := indifferent_leaveSupport e t
  rw [hsupport]
  cases e.support.get? t with
  | none => exact parallel_throw _
  | some firings =>
      refine parallel_ite (parallel_throw _) ?_
      exact parallel_ite (parallel_bind (parallel_set (.refl he)) fun _ => hleft _) (hleft _)

theorem indifferent_retract (a : Activation) (triples : List Triple) (firing : Firing) :
    Indifferent r r' (retract a triples firing : Work γ Unit) := by
  refine indifferent_get_bind fun e _ => ?_
  have hrule : (e.withRegistry r').network.rule? a.rule = e.network.rule? a.rule := rfl
  rw [hrule]
  split
  · refine parallel_bind (indifferent_count _) fun _ => ?_
    refine parallel_bind (indifferent_modify (fun _ => rfl) fun _ => rfl) fun _ => ?_
    exact parallel_forM (indifferent_unsupport a _ _) _
  · exact parallel_pure _

theorem indifferent_retractTokens (t : Triple) (rule : Nat) :
    Indifferent r r' (retractTokens t rule : Work γ Unit) := by
  refine indifferent_get_bind fun e he => ?_
  refine parallel_bind (parallel_set (.refl he)) fun _ => parallel_forM (fun b => ?_) _
  exact indifferent_retract ⟨rule, b.id⟩ b.triples b.firing

theorem indifferent_checkSupport (t : Triple) :
    Indifferent r r' (checkSupport t : Work γ Unit) := by
  refine indifferent_get_bind fun e _ => ?_
  refine parallel_ite (parallel_pure _) ?_
  refine parallel_bind (indifferent_inBase t) fun stored => ?_
  refine parallel_ite (parallel_pure _) (indifferent_get_bind fun e _ => ?_)
  refine parallel_ite (parallel_pure _) ?_
  refine parallel_bind (indifferent_count _) fun _ => indifferent_get_bind fun e _ => ?_
  rw [isGrounded_withRegistry]
  refine parallel_bind (parallel_attempt _) fun grounded => ?_
  refine parallel_ite (parallel_pure _) (parallel_bind (indifferent_count _) fun _ => ?_)
  exact indifferent_withdraw t

/-! ### Matching -/

omit [Graph γ] in
theorem indifferent_store (c : CompiledRule) (s : Subscriber) (m : PartialMatch) :
    Indifferent r r' (store c s m : Work γ (Option TokenId)) := by
  refine indifferent_get_bind fun e he => ?_
  have hmemory : (e.withRegistry r').memory s.rule = e.memory s.rule := rfl
  have hnext : (e.withRegistry r').nextToken = e.nextToken := rfl
  dsimp only
  rw [hmemory, hnext]
  split
  · exact parallel_pure _
  · exact parallel_bind (parallel_set ⟨he, rfl⟩) fun _ => parallel_pure _

omit [Graph γ] in
theorem indifferent_complete (c : CompiledRule) (s : Subscriber) (m : PartialMatch) :
    Indifferent r r' (complete c s m : Work γ Unit) := by
  refine parallel_bind (indifferent_store c s m) fun stored => ?_
  cases stored with
  | none => exact parallel_pure _
  | some id => exact indifferent_schedule _

theorem indifferent_extend (c : CompiledRule) (s : Subscriber) (next : Triple)
    (m : PartialMatch) : Indifferent r r' (extend c s next m : Work γ (List PartialMatch)) := by
  refine parallel_bind (indifferent_store c s m) fun stored => ?_
  cases stored with
  | none => exact parallel_pure _
  | some id =>
      refine indifferent_get_bind fun e _ => ?_
      exact parallel_bind (parallel_attempt _) fun facts => parallel_pure _

theorem indifferent_grow (c : CompiledRule) (rule level : Nat) (following : List Triple)
    (found : List PartialMatch) :
    Indifferent r r' (grow c rule level following found : Work γ Unit) := by
  induction following generalizing level found with
  | nil => exact parallel_forM (indifferent_complete c ⟨rule, level⟩) found
  | cons next following ih =>
      exact parallel_bind (parallel_mapM (indifferent_extend c ⟨rule, level⟩ next) found)
        fun extended => ih (level + 1) extended.flatten

theorem indifferent_activate (t : Triple) (s : Subscriber) :
    Indifferent r r' (activate t s : Work γ Unit) := by
  refine indifferent_get_bind fun e _ => ?_
  have hrule : (e.withRegistry r').network.rule? s.rule = e.network.rule? s.rule := rfl
  have hjoins : ∀ c, (e.withRegistry r').joins c s = e.joins c s := fun _ => rfl
  rw [hrule]
  cases e.network.rule? s.rule with
  | none => exact parallel_pure _
  | some c =>
      simp only [hjoins]
      cases (c.patterns.map Prod.snd).drop s.level with
      | nil => exact parallel_pure _
      | cons pattern following => exact indifferent_grow c s.rule s.level following _

theorem indifferent_propagate (event : Event) :
    Indifferent r r' (propagate event : Work γ Unit) := by
  cases event with
  | added t =>
      refine parallel_bind (indifferent_isVisible t) fun visible => ?_
      refine parallel_ite ?_ (parallel_pure _)
      refine parallel_bind (indifferent_count _) fun _ => indifferent_get_bind fun e _ => ?_
      exact parallel_forM (indifferent_activate t) _
  | deleted t =>
      refine parallel_bind (indifferent_isVisible t) fun visible => ?_
      refine parallel_ite (parallel_pure _) ?_
      refine parallel_bind (indifferent_count _) fun _ => indifferent_get_bind fun e _ => ?_
      exact parallel_forM (indifferent_retractTokens t) _

/-! ### Asking again -/

/-- Asking the calls of a body without effect leaves out those that are not safe. -/
theorem indifferent_stillHolds (h : r.SameIn asked r') (c : CompiledRule)
    (triples : List Triple) : Indifferent r r' (stillHolds c triples : Work γ Bool) := by
  refine indifferent_get_bind fun e he => ?_
  refine parallel_bind (parallel_attempt _) fun bindings => ?_
  have hregistry : (e.withRegistry r').network.registry = r' := rfl
  have hask : (fun (call : Call) st => call.holdsSpeculatively r'
      (.ofView e.view c.label (c.matched triples) true) st) = fun call st =>
      call.holdsSpeculatively r (.ofView e.view c.label (c.matched triples) true) st :=
    funext fun call => funext fun st => call.holdsSpeculatively_eq_of_sameIn h st
  have hsame : allHold (fun call st => call.holdsSpeculatively (e.withRegistry r').network.registry
        (.ofView (e.withRegistry r').view c.label (c.matched triples) true) st) c.calls
        { bindings, world := (e.withRegistry r').world } =
      allHold (fun call st => call.holdsSpeculatively e.network.registry
        (.ofView e.view c.label (c.matched triples) true) st) c.calls
        { bindings, world := e.world } := by
    rw [hregistry, he]
    exact congrArg (allHold · c.calls _) hask
  dsimp only
  rw [hsame]
  exact parallel_bind (parallel_set ⟨he, rfl⟩) fun _ => parallel_pure _

theorem indifferent_reconsider (h : r.SameIn asked r') (c : CompiledRule) (a : Activation)
    (fired : Bool) : Indifferent r r' (reconsider c a fired : Work γ Bool) := by
  refine indifferent_get_bind fun e _ => ?_
  have hmatched : (e.withRegistry r').matchedBy a = e.matchedBy a := rfl
  have hfiring : (e.withRegistry r').firing? a = e.firing? a := rfl
  rw [hmatched, hfiring]
  refine parallel_bind (indifferent_stillHolds h c _) fun held => ?_
  refine parallel_ite ?_ (parallel_ite ?_ (parallel_pure _))
  · refine parallel_bind (indifferent_setFiring a _) fun _ => ?_
    exact parallel_bind (indifferent_retract a _ _) fun _ => parallel_pure _
  · exact parallel_bind (indifferent_schedule a) fun _ => parallel_pure _

theorem indifferent_recheckRule (h : r.SameIn asked r') (c : CompiledRule) (rule : Nat) :
    Indifferent r r' (recheckRule c rule : Work γ Bool) := by
  refine indifferent_get_bind fun e _ => ?_
  refine parallel_bind (parallel_mapM (fun x => ?_) _) fun answers => parallel_pure _
  exact indifferent_reconsider h c ⟨rule, x.1⟩ x.2

theorem indifferent_recheck (h : r.SameIn asked r') :
    Indifferent r r' (recheck : Work γ Bool) := by
  refine indifferent_get_bind fun e _ => ?_
  refine parallel_bind (parallel_mapM (fun x => ?_) _) fun answers => parallel_pure _
  exact indifferent_recheckRule h x.1 x.2

/-! ### Requests -/

omit [Graph γ] in
theorem indifferent_scheduleOnce (rule : Nat) :
    Indifferent r r' (scheduleOnce rule : Work γ Unit) :=
  indifferent_modify (fun _ => rfl) fun _ => rfl

theorem indifferent_restart : Indifferent r r' (restart : Work γ Unit) := by
  refine parallel_bind (indifferent_modify (fun _ => rfl) fun _ => rfl) fun _ => ?_
  refine indifferent_get_bind fun e he => parallel_bind (parallel_attempt _) fun facts => ?_
  refine parallel_bind (parallel_set (.refl he)) fun _ => parallel_forM (fun x => ?_) _
  exact indifferent_scheduleOnce x.2

theorem indifferent_addToBase (t : Triple) : Indifferent r r' (addToBase t : Work γ Bool) := by
  refine indifferent_get_bind fun e he => parallel_bind (parallel_attempt _) fun result => ?_
  refine parallel_bind (parallel_set (.refl he)) fun _ => ?_
  exact parallel_ite (parallel_bind (indifferent_queue _) fun _ => parallel_pure _)
    (parallel_pure _)

theorem indifferent_deleteVisible (t : Triple) :
    Indifferent r r' (deleteVisible t : Work γ Bool) := by
  refine indifferent_get_bind fun e he => parallel_bind (parallel_attempt _) fun result => ?_
  refine parallel_bind (parallel_set (.refl he)) fun _ => parallel_ite ?_ ?_
  · refine parallel_ite (parallel_bind (indifferent_suspect t) fun _ => parallel_pure _) ?_
    exact parallel_bind (indifferent_queue _) fun _ => parallel_pure _
  · refine parallel_bind (indifferent_retractDeduction t) fun removed => ?_
    refine parallel_ite (parallel_bind ?_ fun _ => parallel_pure _) (parallel_pure _)
    exact indifferent_modify (fun _ => rfl) fun _ => rfl

/-- A request runs no builtin. -/
theorem indifferent_request (o : Operation) : Indifferent r r' (o.request : Work γ Unit) := by
  cases o with
  | recompute => exact indifferent_restart
  | add t => exact parallel_bind (indifferent_addToBase t) fun _ => parallel_pure _
  | delete t => exact parallel_bind (indifferent_deleteVisible t) fun _ => parallel_pure _
  | announce event => exact indifferent_queue event
  | close => exact indifferent_modify (fun _ => rfl) fun _ => rfl

/-! ### Firing -/

omit [Graph γ] in
theorem indifferent_report (c : CompiledRule) (conclusions : List Triple) :
    Indifferent r r' (report c conclusions : Work γ Unit) := by
  refine indifferent_modify (fun e => ?_) fun e => ?_
  · cases e.traceFirings <;> rfl
  · have htrace : (e.withRegistry r').traceFirings = e.traceFirings := rfl
    simp only [htrace]
    cases e.traceFirings <;> rfl

omit [Graph γ] in
theorem indifferent_credit (a : Activation) (c : CompiledRule) (matched : List (Option Triple))
    (t : Triple) : Indifferent r r' (credit a c matched t : Work γ Unit) := by
  refine indifferent_modify (fun e => ?_) fun e => ?_
  · cases e.logging <;> cases c.destructive <;> rfl
  · have hlogging : (e.withRegistry r').logging = e.logging := rfl
    simp only [hlogging]
    cases e.logging <;> cases c.destructive <;> rfl

theorem indifferent_assert (t : Triple) : Indifferent r r' (assert t : Work γ Unit) := by
  refine indifferent_get_bind fun e he => parallel_bind (parallel_attempt _) fun result => ?_
  refine parallel_bind (parallel_set (.refl he)) fun _ => parallel_ite ?_ (parallel_pure _)
  refine parallel_bind (indifferent_inBase t) fun stored => ?_
  exact parallel_ite (parallel_pure _) (indifferent_queue _)

theorem indifferent_removeEverywhere (announced : Bool) (t : Triple) :
    Indifferent r r' (removeEverywhere announced t : Work γ Unit) := by
  refine indifferent_get_bind fun e he => parallel_bind (parallel_attempt _) fun result => ?_
  refine parallel_bind (parallel_set (.refl he)) fun _ => ?_
  refine parallel_bind (indifferent_retractDeduction t) fun deduced => ?_
  refine parallel_bind (indifferent_modify (fun _ => rfl) fun _ => rfl) fun _ => ?_
  exact parallel_ite (indifferent_queue _) (parallel_pure _)

theorem indifferent_settleFiring (a : Activation) (c : CompiledRule)
    (matched : List (Option Triple)) (conclusions : List Triple) (effects : Effects) :
    Indifferent r r' (settleFiring a c matched conclusions effects : Work γ Unit) := by
  refine parallel_bind (indifferent_count _) fun _ => ?_
  refine parallel_bind (indifferent_report c conclusions) fun _ => ?_
  refine parallel_bind (indifferent_modify (fun _ => rfl) fun _ => rfl) fun _ => ?_
  refine parallel_bind (indifferent_setFiring a _) fun _ => ?_
  refine parallel_bind (parallel_forM (fun t => ?_) _) fun _ => ?_
  · exact parallel_bind (indifferent_credit a c matched t) fun _ => indifferent_assert t
  · exact parallel_bind (parallel_forM (indifferent_removeEverywhere true) _) fun _ =>
      parallel_forM (indifferent_removeEverywhere false) _

/-- When an activation fires its calls are not speculative. -/
theorem indifferent_fire (h : r.SameIn (fun ctx => ctx.speculative = false) r')
    (a : Activation) : Indifferent r r' (fire a : Work γ Unit) := by
  refine indifferent_get_bind fun e he => ?_
  have hfiring : (e.withRegistry r').firing? a = e.firing? a := rfl
  have hrule : (e.withRegistry r').network.rule? a.rule = e.network.rule? a.rule := rfl
  have hmatched : (e.withRegistry r').matchedBy a = e.matchedBy a := rfl
  rw [hfiring, hrule, hmatched]
  split
  next c _ _ =>
    refine parallel_bind (parallel_attempt _) fun bindings => ?_
    have hsame : c.evaluate (e.withRegistry r').network.registry
        (.ofView (e.withRegistry r').view c.label (c.matched (e.matchedBy a)) false)
        { bindings, world := (e.withRegistry r').world } =
        c.evaluate e.network.registry
          (.ofView e.view c.label (c.matched (e.matchedBy a)) false)
          { bindings, world := e.world } := by
      rw [he]
      exact c.evaluate_eq_of_sameIn h rfl _
    dsimp only
    rw [hsame]
    refine parallel_bind (parallel_set ⟨he, rfl⟩) fun _ => ?_
    split
    · exact parallel_bind (indifferent_count _) fun _ => indifferent_setFiring a _
    · exact indifferent_settleFiring a c _ _ _
  next => exact parallel_pure _

theorem indifferent_step (h : r.SameIn (fun ctx => ctx.speculative = false) r')
    (rechecks : Nat) : Indifferent r r' (step rechecks : Work γ (Option Nat)) := by
  refine indifferent_get_bind fun e he => ?_
  have hevents : (e.withRegistry r').events = e.events := rfl
  have hagenda : (e.withRegistry r').agenda = e.agenda := rfl
  have hsuspects : (e.withRegistry r').suspects = e.suspects := rfl
  rw [hevents, hagenda, hsuspects]
  split
  · exact parallel_bind (parallel_set ⟨he, rfl⟩) fun _ =>
      parallel_bind (indifferent_propagate _) fun _ => parallel_pure _
  · exact parallel_bind (parallel_set ⟨he, rfl⟩) fun _ =>
      parallel_bind (indifferent_fire h _) fun _ => parallel_pure _
  · exact parallel_bind (parallel_set ⟨he, rfl⟩) fun _ =>
      parallel_bind (indifferent_checkSupport _) fun _ => parallel_pure _
  · refine parallel_ite (parallel_pure _) (parallel_bind (indifferent_count _) fun _ => ?_)
    refine parallel_bind (indifferent_recheck h) fun changed => ?_
    exact parallel_ite (parallel_pure _) (parallel_pure _)

end Work

/-! ## Operations and questions -/

section

open Engine

variable {γ : Type} [Graph γ] {r r' : Registry}

theorem Engine.run_withRegistry (h : r.SameIn (fun ctx => ctx.speculative = false) r')
    (budget rechecks : Nat) {e : Engine γ} (he : e.network.registry = r) :
    run budget rechecks (e.withRegistry r') =
        (run budget rechecks e).mapState (withRegistry r') ∧
      ∀ e', (run budget rechecks e).state? = some e' → e'.network.registry = r := by
  induction budget generalizing rechecks e with
  | zero => exact ⟨rfl, fun e' h => nomatch h⟩
  | succ budget ih =>
      have hstep := Work.indifferent_step h rechecks e _ (.refl he)
      unfold run
      generalize Work.step rechecks e = result at hstep
      generalize Work.step rechecks (e.withRegistry r') = result' at hstep
      cases hstep with
      | @ok answer e₁ _ htwin =>
          obtain ⟨hr, rfl⟩ := htwin
          cases answer with
          | some rechecks => exact ih rechecks hr
          | none =>
              refine ⟨rfl, fun e' h => ?_⟩
              cases h
              exact hr
      | error htwin =>
          obtain ⟨hr, rfl⟩ := htwin
          refine ⟨rfl, fun e' h => ?_⟩
          cases h
          exact hr

theorem Operation.perform_withRegistry (h : r.SameIn (fun ctx => ctx.speculative = false) r')
    (o : Operation) (budget : Nat) {e : Engine γ} (he : e.network.registry = r) :
    o.perform budget (e.withRegistry r') = (o.perform budget e).mapState (withRegistry r') ∧
      ∀ e', (o.perform budget e).state? = some e' → e'.network.registry = r := by
  by_cases ho : o = .close
  · subst ho
    refine ⟨rfl, fun e' h => ?_⟩
    cases h
    exact he
  have hstate : (e.withRegistry r').isClosed = e.isClosed := rfl
  rw [perform_eq ho, perform_eq ho]
  unfold operate
  rw [hstate]
  split
  · refine ⟨rfl, fun e' h => ?_⟩
    cases h
    exact he
  · have htwin : Twin r r' e (e.withRegistry r') := .refl he
    have hrequest := Work.indifferent_request o e _ htwin
    generalize o.request e = result at hrequest
    generalize o.request (e.withRegistry r') = result' at hrequest
    cases hrequest with
    | @ok _ e₁ _ htwin =>
        obtain ⟨hr, rfl⟩ := htwin
        obtain ⟨hrun, hkept⟩ := run_withRegistry h budget 0 hr
        change (run budget 0 (e₁.withRegistry r')).map _ = ((run budget 0 e₁).map _).mapState _ ∧ _
        rw [hrun, Outcome.state?_map]
        refine ⟨?_, hkept⟩
        cases run budget 0 e₁ <;> rfl
    | error htwin =>
        obtain ⟨hr, rfl⟩ := htwin
        refine ⟨rfl, fun e' h => ?_⟩
        cases h
        exact hr

/-- What an engine can be asked, together with a solver that sees its graph. -/
inductive Inquiry where
  | operation (o : Operation) (budget : Nat)
  | question (goal : Triple)

namespace Inquiry

/-- What comes of an operation, or the answers to a goal. -/
def answer (s : Solver) : Inquiry → Engine γ → Outcome (Engine γ) (List Triple)
  | .operation o budget, e => (o.perform budget e).map fun _ => []
  | .question goal, e =>
    match s.solve e.view goal e.world with
    | (.ok answers, world) => .done answers { e with world }
    | (.error cause, world) => .failed cause { e with world }

/-- What comes of inquiries one after the other, as long as they end. -/
def answers (s : Solver) : List Inquiry → Engine γ → List (Outcome (Engine γ) (List Triple))
  | [], _ => []
  | q :: rest, e =>
    q.answer s e ::
      match (q.answer s e).state? with
      | some e => answers s rest e
      | none => []

theorem answer_withRegistry (h : r.SameIn (fun ctx => ctx.speculative = false) r') {s : Solver}
    (hs : s.registry = r) (q : Inquiry) {e : Engine γ} (he : e.network.registry = r) :
    q.answer (s.withRegistry r') (e.withRegistry r') =
        (q.answer s e).mapState (withRegistry r') ∧
      ∀ e', (q.answer s e).state? = some e' → e'.network.registry = r := by
  cases q with
  | operation o budget =>
      obtain ⟨hperform, hkept⟩ := o.perform_withRegistry h budget he
      simp only [answer]
      rw [hperform, Outcome.state?_map]
      refine ⟨?_, hkept⟩
      cases o.perform budget e <;> rfl
  | question goal =>
      have hview : (e.withRegistry r').view = e.view := rfl
      have hworld : (e.withRegistry r').world = e.world := rfl
      simp only [answer]
      rw [hview, hworld, Solver.solve_withRegistry h hs]
      cases hsolve : s.solve e.view goal e.world with
      | mk found world =>
          cases found with
          | ok answers =>
              refine ⟨rfl, fun e' h => ?_⟩
              cases h
              exact he
          | error cause =>
              refine ⟨rfl, fun e' h => ?_⟩
              cases h
              exact he

theorem answers_withRegistry (h : r.SameIn (fun ctx => ctx.speculative = false) r') {s : Solver}
    (hs : s.registry = r) (qs : List Inquiry) {e : Engine γ} (he : e.network.registry = r) :
    answers (s.withRegistry r') qs (e.withRegistry r') =
      (answers s qs e).map (Outcome.mapState (withRegistry r')) := by
  induction qs generalizing e with
  | nil => rfl
  | cons q rest ih =>
      obtain ⟨hanswer, hkept⟩ := q.answer_withRegistry h hs he
      unfold answers
      rw [hanswer, List.map_cons]
      refine congrArg _ ?_
      cases houtcome : q.answer s e with
      | unfinished => rfl
      | done answer e' =>
          rw [houtcome] at hkept
          exact ih (hkept e' rfl)
      | failed cause e' =>
          rw [houtcome] at hkept
          exact ih (hkept e' rfl)

end Inquiry

/-- Asking the calls of a body without effect leaves everything as it is but the world:
whatever a call asks to be removed, dropped or hidden is forgotten. -/
theorem Work.stillHolds_state (c : CompiledRule) (triples : List Triple) (e : Engine γ) :
    match Work.stillHolds c triples e with
    | .ok _ e' => ∃ world, e' = { e with world }
    | .error _ e' => e' = e := by
  change match (attempt (c.bindings triples) >>= fun bindings => _ : Work γ Bool) e with
    | .ok _ e' => ∃ world, e' = { e with world }
    | .error _ e' => e' = e
  cases c.bindings triples with
  | ok bindings => exact ⟨_, rfl⟩
  | error cause => rfl

/-- A question changes nothing but the world. -/
theorem Inquiry.question_state (s : Solver) (goal : Triple) (e e' : Engine γ)
    (h : ((Inquiry.question goal).answer s e).state? = some e') :
    ∃ world, e' = { e with world } := by
  simp only [answer] at h
  cases hsolve : s.solve e.view goal e.world with
  | mk found world =>
      rw [hsolve] at h
      cases found with
      | ok answers =>
          cases h
          exact ⟨world, rfl⟩
      | error cause =>
          cases h
          exact ⟨world, rfl⟩

/-- Builtins that are not safe are not run before anything is decided, and what is asked for
then is not done.  What they would do in a speculative context makes no difference to which
rules are accepted, nor to what comes of any operations and questions.  Outside of firings
what they would do in any context makes no difference.  Whatever the calls of a body and of
a goal ask to be removed, dropped or hidden, asking them changes nothing but the world. -/
theorem exchange_unnoticed (γ : Type) [Graph γ] (r r' : Registry) :
    (r.SameIn (fun ctx => ctx.speculative = false) r' →
      (∀ rules, Network.compile rules r' =
        (Network.compile rules r).map (Network.withRegistry r')) ∧
      (∀ rules maxDepth, Solver.ofRules rules r' maxDepth =
        (Solver.ofRules rules r maxDepth).map (Solver.withRegistry r')) ∧
      ∀ (s : Solver) (e : Engine γ), s.registry = r → e.network.registry = r →
        ∀ qs, Inquiry.answers (s.withRegistry r') qs (e.withRegistry r') =
          (Inquiry.answers s qs e).map (Outcome.mapState (withRegistry r'))) ∧
    (r.SameIn (fun _ => False) r' →
      Work.Indifferent r r' (Work.recheck : Work γ Bool) ∧
      (∀ event, Work.Indifferent r r' (Work.propagate event : Work γ Unit)) ∧
      (∀ t, Work.Indifferent r r' (Work.checkSupport t : Work γ Unit)) ∧
      (∀ o : Operation, Work.Indifferent r r' (o.request : Work γ Unit)) ∧
      ∀ (s : Solver) (view : View γ) goal world, s.registry = r →
        (s.withRegistry r').solve view goal world = s.solve view goal world) ∧
    (∀ c triples (e : Engine γ),
      match Work.stillHolds c triples e with
      | .ok _ e' => ∃ world, e' = { e with world }
      | .error _ e' => e' = e) ∧
    ∀ (s : Solver) goal (e e' : Engine γ),
      ((Inquiry.question goal).answer s e).state? = some e' → ∃ world, e' = { e with world } := by
  refine ⟨fun h => ⟨Network.compile_of_sameIn h, Solver.ofRules_of_sameIn h, ?_⟩,
    fun h => ⟨Work.indifferent_recheck h, Work.indifferent_propagate,
      Work.indifferent_checkSupport, Work.indifferent_request, ?_⟩,
    Work.stillHolds_state, Inquiry.question_state⟩
  · exact fun s e hs he qs => Inquiry.answers_withRegistry h hs qs he
  · exact fun s view goal world hs => Solver.solve_withRegistry h hs goal world

/-! ## A bell that rings once -/

/-- Rings when it is asked, and is not safe. -/
def bell : Builtin := Probe.toBuiltin { name := "bell", safe := false }

/-- Rings like the bell, but stops everything if nothing has been decided. -/
def alarm : Builtin :=
  { bell with
    body := fun ctx args st =>
      if ctx.speculative then (false, st.overflow) else bell.body ctx args st
    head := fun ctx args st =>
      if ctx.speculative then (false, st.overflow) else bell.head ctx args st }

def belled : Registry := .ofBuiltins [Builtin.noValue, bell]

def alarmed : Registry := .ofBuiltins [Builtin.noValue, alarm]

theorem sameIn_alarmed : belled.SameIn (fun ctx => ctx.speculative = false) alarmed := by
  have hbell : bell.SameIn (fun ctx => ctx.speculative = false) alarm :=
    { name_eq := rfl
      arity_eq := rfl
      safe_eq := rfl
      monotonic_eq := rfl
      body_eq := fun ctx hctx => by
        have hdecided : ctx.speculative = false := hctx.resolve_left fun h => nomatch h
        simp only [alarm, hdecided]
        rfl
      head_eq := fun ctx hctx => by
        have hdecided : ctx.speculative = false := hctx.resolve_left fun h => nomatch h
        simp only [alarm, hdecided]
        rfl }
  have hnoValue : Builtin.noValue.SameIn (fun ctx => ctx.speculative = false) Builtin.noValue :=
    ⟨rfl, rfl, rfl, rfl, fun _ _ => rfl, fun _ _ => rfl⟩
  have hname : alarm.name = bell.name := rfl
  have huri : alarm.uri = bell.uri := rfl
  intro name
  simp only [Registry.get?, belled, alarmed, Registry.ofBuiltins, List.foldl_cons, List.foldl_nil,
    Registry.register, OrderedMap.get?_insert, hname, huri]
  -- The bell is found by name or by identifier, the negation likewise, and nothing else is.
  cases bell.name == name with
  | true => exact .inr ⟨bell, alarm, rfl, rfl, hbell⟩
  | false =>
      cases Builtin.noValue.name == name with
      | true => exact .inr ⟨_, _, rfl, rfl, hnoValue⟩
      | false =>
          cases bell.uri == name with
          | true => exact .inr ⟨bell, alarm, rfl, rfl, hbell⟩
          | false =>
              cases Builtin.noValue.uri == name with
              | true => exact .inr ⟨_, _, rfl, rfl, hnoValue⟩
              | false => exact .inl ⟨rfl, rfl⟩

/-- Rings for a link, as long as its end is not blocked. -/
def ringing : Rule :=
  .make none
    [.pattern ⟨.var ⟨"x", 0⟩, .uri "linked", .var ⟨"y", 1⟩⟩,
      .call ⟨"noValue", [.var ⟨"y", 1⟩, .uri "blocked"]⟩, .call ⟨"bell", []⟩]
    [.pattern ⟨.var ⟨"x", 0⟩, .uri "reaches", .var ⟨"y", 1⟩⟩] .forward

def ringingNetwork : Network := ((Network.compile [ringing] belled).toOption).getD default

def seeker : Solver := { rules := [], registry := belled, maxDepth := 5 }

/-- A link is added, what it reaches is asked for, and its end is blocked. -/
def ringingInquiries : List Inquiry :=
  [.operation (.add ⟨.uri "a", .uri "linked", .uri "b"⟩) 20,
    .question ⟨.uri "a", .uri "reaches", .any⟩,
    .operation (.add ⟨.uri "b", .uri "blocked", .uri "c"⟩) 20]

/-- What calls have recorded in the end. -/
def ringsAfter (outcomes : List (Outcome (Engine MemoryGraph) (List Triple))) : List Bool :=
  match outcomes.getLast? with
  | some outcome =>
    match outcome.state? with
    | some e => e.world.journal.observations.map Observation.speculative
    | none => []
  | none => []

/-- The activation is asked three times, and the bell rings once; the alarm stays silent. -/
theorem exchange_unnoticed_alarmed :
    Network.compile [ringing] alarmed = .ok (ringingNetwork.withRegistry alarmed) ∧
      Inquiry.answers (seeker.withRegistry alarmed) ringingInquiries
          ((start ringingNetwork MemoryGraph.empty).withRegistry alarmed) =
        (Inquiry.answers seeker ringingInquiries (start ringingNetwork MemoryGraph.empty)).map
          (Outcome.mapState (withRegistry alarmed)) ∧
      ringsAfter (Inquiry.answers seeker ringingInquiries
        (start ringingNetwork MemoryGraph.empty)) = [false] := by
  have hcompiled : Network.compile [ringing] belled = .ok ringingNetwork :=
    ok_getD_of_isSome (by decide +kernel)
  have hregistry : ringingNetwork.registry = belled := rfl
  obtain ⟨hcompile, _, hanswers⟩ :=
    (exchange_unnoticed MemoryGraph belled alarmed).1 sameIn_alarmed
  refine ⟨?_, hanswers seeker _ rfl hregistry ringingInquiries, by decide +kernel⟩
  rw [hcompile, hcompiled]
  rfl

end

end Entailment
