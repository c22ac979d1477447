import Entailment.Proofs.Forward.Work

/-!
# Operations

The operations of an engine as data.  Each but `close` makes a request of an engine that
is not closed, and a run follows the request.  A closed engine answers every request with
the same failure, and stays as it is.
-/

namespace Entailment

namespace Outcome

variable {σ α β : Type}

/-- The state that work has left, done or failed. -/
def state? : Outcome σ α → Option σ
  | .done _ s => some s
  | .failed _ s => some s
  | .unfinished => none

/-- The cause of a failure. -/
def cause? : Outcome σ α → Option Failure
  | .failed cause _ => some cause
  | _ => none

theorem exists_eq_failed {outcome : Outcome σ α} (h : outcome.cause?.isSome = true) :
    ∃ cause s, outcome = .failed cause s ∧ outcome.cause? = some cause := by
  cases outcome with
  | failed cause s => exact ⟨cause, s, rfl, rfl⟩
  | done a s => cases h
  | unfinished => cases h

theorem state?_map (outcome : Outcome σ α) (f : α → β) : (outcome.map f).state? = outcome.state? := by
  cases outcome <;> rfl

theorem state?_eq_getD {outcome : Outcome σ α} (h : outcome.state?.isSome = true) (s : σ) :
    outcome.state? = some (outcome.state?.getD s) := by
  obtain ⟨s', hs⟩ := Option.isSome_iff_exists.1 h
  rw [hs]
  rfl

end Outcome

namespace Engine

variable {γ α : Type} [Graph γ] {e e' : Engine γ} {request : Work γ α} {budget : Nat}

theorem operate_of_closed (hclosed : e.isClosed = true) :
    e.operate budget request = .failed .closed e := by
  rw [operate, if_pos hclosed]

theorem operate_of_error (hclosed : e.isClosed = false) {cause : Failure}
    (h : request e = .error cause e') : e.operate budget request = .failed cause e' := by
  rw [operate, if_neg (Bool.eq_false_iff.1 hclosed), h]

theorem operate_of_ok (hclosed : e.isClosed = false) {a : α} (h : request e = .ok a e') :
    e.operate budget request = (run budget 0 e').map fun _ => a := by
  rw [operate, if_neg (Bool.eq_false_iff.1 hclosed), h]

end Engine

inductive Operation where
  | recompute
  | add (t : Triple)
  | delete (t : Triple)
  /-- A change of the base is announced that others have made. -/
  | announce (event : Event)
  | close

namespace Operation

variable {γ : Type} [Graph γ] {e e' : Engine γ} {budget : Nat}

/-- What the operation does to an engine, its answer left out. -/
def perform (budget : Nat) (o : Operation) (e : Engine γ) : Outcome (Engine γ) Unit :=
  match o with
  | .recompute => e.recompute budget
  | .add t => (e.add budget t).map fun _ => ()
  | .delete t => (e.delete budget t).map fun _ => ()
  | .announce event => e.announce budget event
  | .close => .done () e.close

/-- What the operation does before its run. -/
def request : Operation → Work γ Unit
  | .recompute => Work.restart
  | .add t => do let _ ← Work.addToBase t
  | .delete t => do let _ ← Work.deleteVisible t
  | .announce event => modify fun e => e.queue event
  | .close => modify Engine.close

theorem operate_ignoring {α : Type} (request : Work γ α) :
    e.operate budget (do let _ ← request) = (e.operate budget request).map fun _ => () := by
  unfold Engine.operate
  split
  · rfl
  · cases hrequest : request e with
    | error cause e₁ =>
        have hignored : (do let _ ← request : Work γ Unit) e = .error cause e₁ := by
          change EStateM.bind request _ e = _
          rw [EStateM.bind, hrequest]
        rw [hignored]
        rfl
    | ok answer e₁ =>
        have hignored : (do let _ ← request : Work γ Unit) e = .ok () e₁ := by
          change EStateM.bind request _ e = _
          rw [EStateM.bind, hrequest]
          rfl
        rw [hignored]
        simp only
        cases Engine.run budget 0 e₁ <;> rfl

/-- Every operation but `close` is a request and the run that follows. -/
theorem perform_eq {o : Operation} (ho : o ≠ .close) :
    o.perform budget e = e.operate budget o.request := by
  cases o with
  | recompute => rfl
  | add t => exact (operate_ignoring _).symm
  | delete t => exact (operate_ignoring _).symm
  | announce event => rfl
  | close => exact absurd rfl ho

/-! ## Requests that are refused -/

variable {o : Operation} {cause : Failure}

omit [Graph γ] in
theorem access_eq_error {α : Type} {result : Except GraphError α}
    (h : (Work.access result : Work γ α) e = .error cause e') :
    (∃ error, result = .error error ∧ cause = .graph error) ∧ e' = e := by
  cases result with
  | ok a => cases h
  | error error =>
      cases h
      exact ⟨⟨error, rfl, rfl⟩, rfl⟩

omit [Graph γ] in
theorem retractDeduction_eq_error {t : Triple}
    (h : (Work.retractDeduction t : Work γ Bool) e = .error cause e') :
    (∃ error, e.deductions.delete t = .error error ∧ cause = .graph error) ∧ e' = e := by
  rcases Work.bind_eq_error h with h | ⟨_, _, hgot, h⟩
  · cases h
  cases hgot
  rcases Work.bind_eq_error h with h | ⟨_, _, _, h⟩
  · exact access_eq_error h
  · cases h

/-- To start over forgets all before the base is listed. -/
theorem restart_eq_error (h : Work.restart e = .error cause e') :
    (∃ error, Graph.find e.base .any = .error error ∧ cause = .graph error) ∧ e' = e.reset := by
  rcases Work.bind_eq_error h with h | ⟨_, _, hreset, h⟩
  · cases h
  cases hreset
  rcases Work.bind_eq_error h with h | ⟨_, _, hgot, h⟩
  · cases h
  cases hgot
  rcases Work.bind_eq_error h with h | ⟨_, _, _, h⟩
  · exact access_eq_error h
  rcases Work.bind_eq_error h with h | ⟨_, _, _, h⟩
  · cases h
  exact absurd h ((Work.failsOnly_forM (fun _ => Work.failsOnly_modify _) _).ne_error _ _ _)

theorem addToBase_eq_error {t : Triple} (h : Work.addToBase t e = .error cause e') :
    (∃ error, Graph.add e.base t = .error error ∧ cause = .graph error) ∧ e' = e := by
  rcases Work.bind_eq_error h with h | ⟨_, _, hgot, h⟩
  · cases h
  cases hgot
  rcases Work.bind_eq_error h with h | ⟨_, _, _, h⟩
  · exact access_eq_error h
  rcases Work.bind_eq_error h with h | ⟨_, _, _, h⟩
  · cases h
  exact absurd h ((Work.failsOnly_ite (Work.failsOnly_bind (Work.failsOnly_modify _) fun _ =>
    Work.failsOnly_pure _) (Work.failsOnly_pure _)).ne_error _ _ _)

/-- Once the base has granted a deletion, only the deductions can refuse it. -/
theorem deleteVisible_eq_error {t : Triple} (h : Work.deleteVisible t e = .error cause e') :
    (∃ error, cause = .graph error) ∧ (e' = e ∨ ∃ base error,
      e.deductions.delete t = .error error ∧ e' = { e with base }) := by
  rcases Work.bind_eq_error h with h | ⟨_, _, hgot, h⟩
  · cases h
  cases hgot
  rcases Work.bind_eq_error h with h | ⟨answer, _, _, h⟩
  · obtain ⟨⟨error, _, hgraph⟩, rfl⟩ := access_eq_error h
    exact ⟨⟨error, hgraph⟩, Or.inl rfl⟩
  rcases Work.bind_eq_error h with h | ⟨_, _, hset, h⟩
  · cases h
  cases hset
  simp only at h
  split at h
  · exact absurd h ((Work.failsOnly_ite
      (Work.failsOnly_bind (Work.failsOnly_modify _) fun _ => Work.failsOnly_pure _)
      (Work.failsOnly_bind (Work.failsOnly_modify _) fun _ => Work.failsOnly_pure _)).ne_error _ _ _)
  · rcases Work.bind_eq_error h with h | ⟨_, _, _, h⟩
    · obtain ⟨⟨error, hdelete, hgraph⟩, rfl⟩ := retractDeduction_eq_error h
      exact ⟨⟨error, hgraph⟩, Or.inr ⟨_, error, hdelete, rfl⟩⟩
    · exact absurd h ((Work.failsOnly_ite (Work.failsOnly_bind (Work.failsOnly_modify _) fun _ =>
        Work.failsOnly_pure _) (Work.failsOnly_pure _)).ne_error _ _ _)

/-- What a request leaves that is refused.  It is a graph that refuses it, and nothing has been
written then, unless all was forgotten before or the base had granted what the deductions
refuse. -/
theorem refusal (h : o.request e = .error cause e') :
    (∃ error, cause = .graph error) ∧
      (e' = e ∨
        (o = .recompute ∧ e' = e.reset ∧ ∃ error, Graph.find e.base .any = .error error) ∨
        ∃ t base error, o = .delete t ∧ e.deductions.delete t = .error error ∧
          e' = { e with base }) := by
  cases o with
  | recompute =>
      obtain ⟨⟨error, hfound, hgraph⟩, hreset⟩ := restart_eq_error h
      exact ⟨⟨error, hgraph⟩, Or.inr (Or.inl ⟨rfl, hreset, error, hfound⟩)⟩
  | add t =>
      rcases Work.bind_eq_error h with h | ⟨_, _, _, h⟩
      · obtain ⟨⟨error, _, hgraph⟩, hsame⟩ := addToBase_eq_error h
        exact ⟨⟨error, hgraph⟩, Or.inl hsame⟩
      · cases h
  | delete t =>
      rcases Work.bind_eq_error h with h | ⟨_, _, _, h⟩
      · obtain ⟨hgraph, hsame | ⟨base, error, hdelete, hbase⟩⟩ := deleteVisible_eq_error h
        · exact ⟨hgraph, Or.inl hsame⟩
        · exact ⟨hgraph, Or.inr (Or.inr ⟨t, base, error, rfl, hdelete, hbase⟩)⟩
      · cases h
  | announce event => cases h
  | close => cases h

/-- A request is refused by a graph only, and it leaves the engine in the state it was in. -/
theorem request_eq_error (h : o.request e = .error cause e') :
    (∃ error, cause = .graph error) ∧ e'.state = e.state := by
  obtain ⟨hgraph, rfl | ⟨_, rfl, _⟩ | ⟨_, _, _, _, _, rfl⟩⟩ := refusal h
  all_goals exact ⟨hgraph, rfl⟩

/-- What an operation may leave: the engine as it was, if it was closed; a closed engine;
what a refused request has left; or what a run has left after the request. -/
theorem leaves_cases (h : (o.perform budget e).state? = some e') :
    (e.isClosed = true ∧ e' = e) ∨ (∃ e₁ : Engine γ, e' = e₁.close) ∨
      (e.isClosed = false ∧ ∃ cause, o.request e = .error cause e') ∨
      e.isClosed = false ∧
        ∃ e₁, o.request e = .ok () e₁ ∧ (Engine.run budget 0 e₁).state? = some e' := by
  by_cases ho : o = .close
  · subst ho
    exact Or.inr (Or.inl ⟨e, (Option.some.inj h).symm⟩)
  rw [perform_eq ho] at h
  cases hclosed : e.isClosed with
  | true =>
      rw [Engine.operate_of_closed hclosed] at h
      exact Or.inl ⟨rfl, (Option.some.inj h).symm⟩
  | false =>
      right; right
      cases hrequest : o.request e with
      | error cause e₁ =>
          rw [Engine.operate_of_error hclosed hrequest] at h
          exact Or.inl ⟨rfl, cause, (Option.some.inj h) ▸ rfl⟩
      | ok _ e₁ =>
          rw [Engine.operate_of_ok hclosed hrequest, Outcome.state?_map] at h
          exact Or.inr ⟨rfl, e₁, rfl, h⟩

end Operation

/-! ## Histories -/

namespace Engine

variable {γ : Type} [Graph γ]

/-- A run leaves a closed engine, or what its steps have kept. -/
theorem run_leaves {P : Engine γ → Prop} (hstep : ∀ rechecks, Work.Keeps P (Work.step rechecks))
    (hidle : ∀ e, P e → P { e with state := .idle }) {budget rechecks : Nat} {e e' : Engine γ}
    (he : P e) (h : (e.run budget rechecks).state? = some e') :
    P e' ∨ ∃ e₁ : Engine γ, e' = e₁.close := by
  induction budget generalizing rechecks e with
  | zero => cases h
  | succ budget ih =>
      rw [run] at h
      cases hwork : Work.step rechecks e with
      | error cause e₁ =>
          rw [hwork] at h
          exact Or.inr ⟨e₁, (Option.some.inj h).symm⟩
      | ok answer e₁ =>
          have he₁ := hstep rechecks e answer e₁ he hwork
          rw [hwork] at h
          cases answer with
          | some more => exact ih he₁ h
          | none =>
              cases h
              exact Or.inl (hidle e₁ he₁)

/-- The engines that allowed operations lead to, whether they are done or fail.  Between
operations the base may change, and so may the settings of the engine and its world. -/
inductive Operated (n : Network) (sane : γ → Prop) (allowed : Operation → Prop) :
    Engine γ → Prop where
  | start {base : γ} : sane base → Operated n sane allowed (.start n base)
  | performed {e e' : Engine γ} {o : Operation} {budget : Nat} :
      Operated n sane allowed e → allowed o → (o.perform budget e).state? = some e' →
      Operated n sane allowed e'
  | rebased {e : Engine γ} {base : γ} :
      Operated n sane allowed e → sane base → Operated n sane allowed { e with base }
  | logging {e : Engine γ} {on : Bool} :
      Operated n sane allowed e → Operated n sane allowed (e.setLogging on)
  | settings {e : Engine γ} {traceFirings : Bool} {maxRechecks : Nat} {world : World} :
      Operated n sane allowed e →
      Operated n sane allowed { e with traceFirings, maxRechecks, world }

end Engine

end Entailment
