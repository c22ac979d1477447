import Entailment.Forward.Run
import Entailment.Proofs.Graph.Memory

/-!
# What work comes to

Work ends in a postcondition if it does not fail and leaves an engine that meets it.
Where it may fail, there is what it leaves if it does not, what it keeps then, and what
it fails with.  The rules follow the ways in which work is put together; a loop is
described by what holds before each of the items that remain.
-/

namespace Entailment

namespace Work

variable {γ α β : Type}

/-- The work does not fail, and what it gives and leaves meets the postcondition. -/
def Ends (w : Work γ α) (e : Engine γ) (post : α → Engine γ → Prop) : Prop :=
  match w e with
  | .ok a e => post a e
  | .error _ _ => False

variable {e : Engine γ} {post : α → Engine γ → Prop}

theorem Ends.exists_ok {w : Work γ α} (h : w.Ends e post) :
    ∃ a e', w e = .ok a e' ∧ post a e' := by
  unfold Ends at h
  cases hw : w e with
  | ok a e' => exact ⟨a, e', rfl, by rwa [hw] at h⟩
  | error cause e' =>
      rw [hw] at h
      exact h.elim

theorem Ends.of_ok {w : Work γ α} {a : α} {e' : Engine γ} (h : w e = .ok a e')
    (hpost : post a e') : w.Ends e post := by
  rw [Ends, h]
  exact hpost

theorem Ends.mono {w : Work γ α} {weaker : α → Engine γ → Prop} (h : w.Ends e post)
    (himp : ∀ a e', post a e' → weaker a e') : w.Ends e weaker := by
  obtain ⟨a, e', hw, hpost⟩ := h.exists_ok
  exact .of_ok hw (himp a e' hpost)

theorem ends_pure {a : α} : (pure a : Work γ α).Ends e post ↔ post a e := Iff.rfl

theorem ends_get {post : Engine γ → Engine γ → Prop} :
    (get : Work γ (Engine γ)).Ends e post ↔ post e e := Iff.rfl

theorem ends_set {e' : Engine γ} {post : PUnit → Engine γ → Prop} :
    (set e' : Work γ PUnit).Ends e post ↔ post ⟨⟩ e' := Iff.rfl

theorem ends_modify {f : Engine γ → Engine γ} {post : PUnit → Engine γ → Prop} :
    (modify f : Work γ PUnit).Ends e post ↔ post ⟨⟩ (f e) := Iff.rfl

theorem ends_count {f : EngineStats → EngineStats} {post : Unit → Engine γ → Prop} :
    (count f : Work γ Unit).Ends e post ↔ post () { e with stats := f e.stats } := Iff.rfl

theorem ends_attempt {a : α} : (attempt (.ok a) : Work γ α).Ends e post ↔ post a e := Iff.rfl

theorem ends_access {a : α} : (access (.ok a) : Work γ α).Ends e post ↔ post a e := Iff.rfl

theorem ends_bind {w : Work γ β} {f : β → Work γ α} :
    (w >>= f).Ends e post ↔ w.Ends e fun b e' => (f b).Ends e' post := by
  change (match EStateM.bind w f e with
    | .ok a e => post a e
    | .error _ _ => False) ↔ _
  unfold Ends EStateM.bind
  cases w e <;> rfl

theorem Ends.bind {w : Work γ β} {f : β → Work γ α} {mid : β → Engine γ → Prop}
    (hw : w.Ends e mid) (hf : ∀ b e', mid b e' → (f b).Ends e' post) : (w >>= f).Ends e post :=
  ends_bind.2 (hw.mono hf)

/-- A loop, by what holds before each item with those that remain. -/
theorem ends_forM {w : α → Work γ PUnit} (remaining : List α → Engine γ → Prop)
    (hstep : ∀ a rest e, remaining (a :: rest) e → (w a).Ends e fun _ e' => remaining rest e')
    (as : List α) {e : Engine γ} (he : remaining as e) :
    (as.forM w).Ends e fun _ e' => remaining [] e' := by
  induction as generalizing e with
  | nil => exact he
  | cons a as ih =>
      change (w a >>= fun _ => as.forM w).Ends e _
      exact (hstep a as e he).bind fun _ e' he' => ih he'

/-- A loop that collects answers, by what holds of those so far. -/
theorem ends_mapM {w : α → Work γ β} (remaining : List α → List β → Engine γ → Prop)
    (hstep : ∀ a rest done e, remaining (a :: rest) done e →
      (w a).Ends e fun b e' => remaining rest (done ++ [b]) e')
    (as : List α) (done : List β) {e : Engine γ} (he : remaining as done e) :
    (as.mapM w).Ends e fun bs e' => remaining [] (done ++ bs) e' := by
  induction as generalizing done e with
  | nil =>
      rw [List.mapM_nil, ends_pure, List.append_nil]
      exact he
  | cons a as ih =>
      rw [List.mapM_cons]
      refine (hstep a as done e he).bind fun b e' he' => ?_
      refine (ih _ he').bind fun bs e'' he'' => ?_
      rw [ends_pure]
      rw [List.append_assoc] at he''
      exact he''

/-! ## What work leaves if it does not fail -/

/-- If the work does not fail, what it gives and leaves meets the postcondition. -/
def Leaves (w : Work γ α) (e : Engine γ) (post : α → Engine γ → Prop) : Prop :=
  ∀ a e', w e = .ok a e' → post a e'

section Leaving

variable {e : Engine γ} {post : α → Engine γ → Prop}

theorem Leaves.mono {w : Work γ α} {weaker : α → Engine γ → Prop} (h : w.Leaves e post)
    (himp : ∀ a e', post a e' → weaker a e') : w.Leaves e weaker :=
  fun a e' hw => himp a e' (h a e' hw)

theorem Leaves.and {w : Work γ α} {also : α → Engine γ → Prop} (h : w.Leaves e post)
    (k : w.Leaves e also) : w.Leaves e fun a e' => post a e' ∧ also a e' :=
  fun a e' hw => ⟨h a e' hw, k a e' hw⟩

theorem leaves_pure {a : α} (h : post a e) : (pure a : Work γ α).Leaves e post := by
  intro b e' hw
  cases hw
  exact h

theorem leaves_throw {cause : Failure} : (throw cause : Work γ α).Leaves e post :=
  fun _ _ h => nomatch h

theorem leaves_set {e' : Engine γ} {post : PUnit → Engine γ → Prop} (h : post ⟨⟩ e') :
    (set e' : Work γ PUnit).Leaves e post := by
  intro a e'' hw
  cases hw
  exact h

theorem leaves_modify {f : Engine γ → Engine γ} {post : PUnit → Engine γ → Prop}
    (h : post ⟨⟩ (f e)) : (modify f : Work γ PUnit).Leaves e post := by
  intro a e' hw
  cases hw
  exact h

theorem leaves_attempt {result : Except Failure α} (h : ∀ a, result = .ok a → post a e) :
    (attempt result : Work γ α).Leaves e post := by
  cases result with
  | ok a => exact leaves_pure (h a rfl)
  | error cause => exact leaves_throw

theorem Leaves.bind {w : Work γ β} {f : β → Work γ α} {mid : β → Engine γ → Prop}
    (hw : w.Leaves e mid) (hf : ∀ b e', mid b e' → (f b).Leaves e' post) :
    (w >>= f).Leaves e post := by
  intro a e' h
  change EStateM.bind w f e = _ at h
  unfold EStateM.bind at h
  cases hmid : w e with
  | error cause e₁ =>
      rw [hmid] at h
      cases h
  | ok b e₁ =>
      rw [hmid] at h
      exact hf b e₁ (hw b e₁ hmid) a e' h

theorem leaves_get_bind {f : Engine γ → Work γ α} (h : (f e).Leaves e post) :
    (get >>= f).Leaves e post := h

theorem leaves_set_bind {e' : Engine γ} {f : PUnit → Work γ α} (h : (f ⟨⟩).Leaves e' post) :
    (set e' >>= f).Leaves e post := h

theorem leaves_modify_bind {change : Engine γ → Engine γ} {f : PUnit → Work γ α}
    (h : (f ⟨⟩).Leaves (change e) post) : (modify change >>= f).Leaves e post := h

/-- A loop, by what holds before each item with those that remain. -/
theorem leaves_forM {w : α → Work γ PUnit} (remaining : List α → Engine γ → Prop)
    (hstep : ∀ a rest e, remaining (a :: rest) e → (w a).Leaves e fun _ e' => remaining rest e')
    (as : List α) {e : Engine γ} (he : remaining as e) :
    (as.forM w).Leaves e fun _ e' => remaining [] e' := by
  induction as generalizing e with
  | nil => exact leaves_pure he
  | cons a as ih => exact (hstep a as e he).bind fun _ _ he' => ih he'

/-- The same for a loop that collects answers. -/
theorem leaves_mapM {w : α → Work γ β} (remaining : List α → Engine γ → Prop)
    (hstep : ∀ a rest e, remaining (a :: rest) e → (w a).Leaves e fun _ e' => remaining rest e')
    (as : List α) {e : Engine γ} (he : remaining as e) :
    (as.mapM w).Leaves e fun _ e' => remaining [] e' := by
  induction as generalizing e with
  | nil => exact leaves_pure he
  | cons a as ih =>
      rw [List.mapM_cons]
      exact (hstep a as e he).bind fun _ _ he' => (ih he').bind fun _ _ he'' => leaves_pure he''

end Leaving

/-! ## What work keeps -/

section Keeping

variable {P : Engine γ → Prop}

/-- Whatever engine has the property, it still has it when the work is done. -/
def Keeps (P : Engine γ → Prop) (w : Work γ α) : Prop :=
  ∀ e a e', P e → w e = .ok a e' → P e'

theorem Keeps.leaves {w : Work γ α} (h : Keeps P w) {e : Engine γ} (he : P e) :
    w.Leaves e fun _ e' => P e' :=
  fun a e' hw => h e a e' he hw

theorem keeps_of_leaves {w : Work γ α} (h : ∀ e, P e → w.Leaves e fun _ e' => P e') : Keeps P w :=
  fun e a e' he hw => h e he a e' hw

theorem keeps_pure (a : α) : Keeps P (pure a : Work γ α) :=
  keeps_of_leaves fun _ he => leaves_pure he

theorem keeps_throw (cause : Failure) : Keeps P (throw cause : Work γ α) :=
  keeps_of_leaves fun _ _ => leaves_throw

theorem keeps_set {e : Engine γ} (he : P e) : Keeps P (set e : Work γ PUnit) :=
  keeps_of_leaves fun _ _ => leaves_set he

theorem keeps_modify {f : Engine γ → Engine γ} (hf : ∀ e, P e → P (f e)) :
    Keeps P (modify f : Work γ PUnit) :=
  keeps_of_leaves fun e he => leaves_modify (hf e he)

theorem keeps_attempt (result : Except Failure α) : Keeps P (attempt result : Work γ α) :=
  keeps_of_leaves fun _ he => leaves_attempt fun _ _ => he

theorem keeps_bind {w : Work γ β} {f : β → Work γ α} (hw : Keeps P w) (hf : ∀ b, Keeps P (f b)) :
    Keeps P (w >>= f) :=
  keeps_of_leaves fun _ he => (hw.leaves he).bind fun b _ he' => (hf b).leaves he'

/-- What work goes on from an engine that it has looked at may use the property of it. -/
theorem keeps_get_bind {f : Engine γ → Work γ α} (hf : ∀ e, P e → Keeps P (f e)) :
    Keeps P (get >>= f) :=
  fun e a e' he h => hf e he e a e' he h

theorem keeps_ite {c : Prop} [Decidable c] {w w' : Work γ α} (hw : Keeps P w)
    (hw' : Keeps P w') : Keeps P (if c then w else w') := by
  split
  · exact hw
  · exact hw'

theorem keeps_forM {w : α → Work γ PUnit} (hw : ∀ a, Keeps P (w a)) (as : List α) :
    Keeps P (as.forM w) :=
  keeps_of_leaves fun _ he => leaves_forM (fun _ => P) (fun a _ _ he => (hw a).leaves he) as he

/-- What each member keeps is kept by all of them in turn. -/
theorem keeps_forM_each {w : α → Work γ PUnit} {as : List α} (hw : ∀ a ∈ as, Keeps P (w a)) :
    Keeps P (as.forM w) := by
  induction as with
  | nil => exact keeps_pure _
  | cons a as ih =>
      exact keeps_bind (hw a List.mem_cons_self)
        fun _ => ih fun a ha => hw a (List.mem_cons_of_mem _ ha)

theorem keeps_mapM {w : α → Work γ β} (hw : ∀ a, Keeps P (w a)) (as : List α) :
    Keeps P (as.mapM w) :=
  keeps_of_leaves fun _ he => leaves_mapM (fun _ => P) (fun a _ _ he => (hw a).leaves he) as he

theorem keeps_mapM_each {w : α → Work γ β} {as : List α} (hw : ∀ a ∈ as, Keeps P (w a)) :
    Keeps P (as.mapM w) := by
  induction as with
  | nil => exact keeps_pure _
  | cons a as ih =>
      rw [List.mapM_cons]
      exact keeps_bind (hw a List.mem_cons_self) fun _ => keeps_bind
        (ih fun a ha => hw a (List.mem_cons_of_mem _ ha)) fun _ => keeps_pure _

end Keeping

/-! ## What work fails with -/

section Failing

variable {kind : Failure → Prop}

/-- Whenever the work fails, it does so with a failure of this kind. -/
def FailsOnly (kind : Failure → Prop) (w : Work γ α) : Prop :=
  ∀ e cause e', w e = .error cause e' → kind cause

/-- Work that fails with no failure does not fail. -/
theorem FailsOnly.ne_error {w : Work γ α} (h : FailsOnly (fun _ => False) w) (e : Engine γ)
    (cause : Failure) (e' : Engine γ) : w e ≠ .error cause e' :=
  fun hfailed => h e cause e' hfailed

theorem failsOnly_pure (a : α) : FailsOnly kind (pure a : Work γ α) :=
  fun _ _ _ h => nomatch h

theorem failsOnly_get : FailsOnly kind (get : Work γ (Engine γ)) :=
  fun _ _ _ h => nomatch h

theorem failsOnly_set (e : Engine γ) : FailsOnly kind (set e : Work γ PUnit) :=
  fun _ _ _ h => nomatch h

theorem failsOnly_modify (f : Engine γ → Engine γ) : FailsOnly kind (modify f : Work γ PUnit) :=
  fun _ _ _ h => nomatch h

theorem failsOnly_count (change : EngineStats → EngineStats) :
    FailsOnly kind (count change : Work γ Unit) :=
  failsOnly_modify _

theorem failsOnly_throw {cause : Failure} (h : kind cause) :
    FailsOnly kind (throw cause : Work γ α) := by
  intro e cause' e' hfailed
  cases hfailed
  exact h

theorem failsOnly_attempt {result : Except Failure α}
    (h : ∀ cause, result = .error cause → kind cause) :
    FailsOnly kind (attempt result : Work γ α) := by
  cases result with
  | ok a => exact failsOnly_pure a
  | error cause => exact failsOnly_throw (h cause rfl)

/-- Work in two parts fails in the first or, where the first has led, in the second. -/
theorem bind_eq_error {w : Work γ β} {f : β → Work γ α} {e e' : Engine γ} {cause : Failure}
    (h : (w >>= f) e = .error cause e') :
    w e = .error cause e' ∨ ∃ b e₁, w e = .ok b e₁ ∧ f b e₁ = .error cause e' := by
  change EStateM.bind w f e = _ at h
  unfold EStateM.bind at h
  cases hmid : w e with
  | ok b e₁ =>
      rw [hmid] at h
      exact Or.inr ⟨b, e₁, rfl, h⟩
  | error cause₁ e₁ =>
      rw [hmid] at h
      cases h
      exact Or.inl rfl

theorem failsOnly_bind {w : Work γ β} {f : β → Work γ α} (hw : FailsOnly kind w)
    (hf : ∀ b, FailsOnly kind (f b)) : FailsOnly kind (w >>= f) := by
  intro e cause e' h
  rcases bind_eq_error h with hfirst | ⟨b, e₁, _, hsecond⟩
  · exact hw e cause e' hfirst
  · exact hf b e₁ cause e' hsecond

theorem failsOnly_ite {c : Prop} [Decidable c] {w w' : Work γ α} (hw : FailsOnly kind w)
    (hw' : FailsOnly kind w') : FailsOnly kind (if c then w else w') := by
  split
  · exact hw
  · exact hw'

theorem failsOnly_forM {w : α → Work γ PUnit} (hw : ∀ a, FailsOnly kind (w a)) (as : List α) :
    FailsOnly kind (as.forM w) := by
  induction as with
  | nil => exact failsOnly_pure _
  | cons a as ih => exact failsOnly_bind (hw a) fun _ => ih

theorem failsOnly_mapM {w : α → Work γ β} (hw : ∀ a, FailsOnly kind (w a)) (as : List α) :
    FailsOnly kind (as.mapM w) := by
  induction as with
  | nil => exact failsOnly_pure []
  | cons a as ih =>
      rw [List.mapM_cons]
      exact failsOnly_bind (hw a) fun b => failsOnly_bind ih fun bs => failsOnly_pure (b :: bs)

end Failing

/-! ## One supporter less -/

section Support

variable [Graph γ]

/-- Stores the supporters that are left of a conclusion.  With none left it is withdrawn,
unless it was committed. -/
def leaveSupport (e : Engine γ) (t : Triple) (firings : OrderedSet Activation) : Work γ Unit := do
  if firings.isEmpty then
    modify fun e => { e with support := e.support.erase t }
    unless e.committed.contains t do withdraw t
  else
    modify fun e => { e with support := e.support.insert t firings }
    suspect t

theorem unsupport_eq (a : Activation) (c : CompiledRule) (matched : List (Option Triple))
    (t : Triple) : (unsupport a c matched t : Work γ Unit) = (do
      let e ← get
      match e.support.get? t with
      | none => throw (.invariant (.noSupport t))
      | some firings =>
        if !firings.contains a then throw (.invariant (.notSupporting c.label t))
        if e.logging then
          set { e with derivations := (e.derivations.remove ⟨t, c.rule, matched⟩).2 }
        leaveSupport e t (firings.erase a)) := rfl

/-- The property does not depend on who supports what, on suspects and on derivations. -/
def BesideSupport (P : Engine γ → Prop) : Prop :=
  ∀ (e : Engine γ) support suspects derivations, P e → P { e with support, suspects, derivations }

theorem BesideSupport.unsupport {P : Engine γ → Prop} (hP : BesideSupport P) {t : Triple}
    (hwithdraw : Keeps P (withdraw t)) (a : Activation) (c : CompiledRule)
    (matched : List (Option Triple)) : Keeps P (unsupport a c matched t : Work γ Unit) := by
  have hleft : ∀ e firings, Keeps P (leaveSupport e t firings) := fun e firings =>
    keeps_ite (keeps_bind (keeps_modify fun e he => hP e _ e.suspects e.derivations he) fun _ =>
        keeps_ite (keeps_pure _) hwithdraw)
      (keeps_bind (keeps_modify fun e he => hP e _ e.suspects e.derivations he) fun _ =>
        keeps_modify fun e he => hP e e.support _ e.derivations he)
  rw [unsupport_eq]
  refine keeps_get_bind fun e he => ?_
  have hforgotten : Keeps P (set { e with
      derivations := (e.derivations.remove ⟨t, c.rule, matched⟩).2 } : Work γ PUnit) :=
    keeps_set (hP e e.support e.suspects _ he)
  split
  · exact keeps_throw _
  · refine keeps_ite (keeps_bind (keeps_throw _) fun _ => ?_) ?_
    all_goals exact keeps_ite (keeps_bind hforgotten fun _ => hleft _ _) (hleft _ _)

end Support

end Work

end Entailment
