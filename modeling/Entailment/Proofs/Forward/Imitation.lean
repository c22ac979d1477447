import Entailment.Proofs.Forward.Delay
import Entailment.Proofs.Forward.Work

/-!
# Work later

A work imitates another if it does to the delayed image of an engine what the other does to
the engine itself: it gives the delayed answer or fails with the delayed cause, and leaves the
delayed image of what the other leaves.  The rules follow the ways in which work is put
together; with them every piece of work of the engine imitates itself.
-/

namespace Entailment

namespace Delay

variable {γ : Type}

/-- What must hold of an engine's parts for it to have an image over another base that has
another supply of blank nodes. -/
structure Fits (δ : Delay) (Rel : γ → γ → Prop) (n network : Network) (base base' : γ)
    (deductions : MemoryGraph) (supply supply' : BlankSupply) : Prop where
  network_eq : network = n
  related : Rel base base'
  reachable : deductions.Reachable
  supply_eq : supply' = δ.supply supply
  ready : δ.Ready supply

/-- The engine has an image over the base and in the world. -/
def Ties (δ : Delay) (Rel : γ → γ → Prop) (n : Network) (e : Engine γ) (base : γ)
    (world : World) : Prop :=
  δ.Fits Rel n e.network e.base base e.deductions e.world.supply world.supply

theorem rule?_engine (δ : Delay) (e : Engine γ) (base : γ) (world : World) (rule : Nat) :
    (δ.engine e base world).network.rule? rule = e.network.rule? rule := rfl

/-! ## Searches for grounds -/

variable {α α' β β' : Type}

/-- With the image of what was found before, the second search gives the image of what the
first gives. -/
def Retraces (δ : Delay) (f : α → α') (w : StateT (List Triple) (Except Failure) α)
    (w' : StateT (List Triple) (Except Failure) α') : Prop :=
  ∀ found : List Triple,
    w' (found.map δ.triple) = δ.result (Prod.map f (List.map δ.triple)) (w found)

section Retracing

variable {δ : Delay} {f : α → α'} {g : β → β'}

theorem retraces_pure (a : α) : δ.Retraces f (pure a) (pure (f a)) := fun _ => rfl

theorem retraces_get : δ.Retraces (List.map δ.triple) get get := fun _ => rfl

theorem retraces_found (t : Triple) :
    δ.Retraces id (modify (t :: ·)) (modify (δ.triple t :: ·)) := fun _ => rfl

theorem retraces_lift (r : Except Failure α) :
    δ.Retraces f (liftM r) (liftM (δ.result f r)) := by
  intro found
  cases r <;> rfl

theorem retraces_bind {w : StateT (List Triple) (Except Failure) α}
    {w' : StateT (List Triple) (Except Failure) α'}
    {k : α → StateT (List Triple) (Except Failure) β}
    {k' : α' → StateT (List Triple) (Except Failure) β'} (hw : δ.Retraces f w w')
    (hk : ∀ a, δ.Retraces g (k a) (k' (f a))) : δ.Retraces g (w >>= k) (w' >>= k') := by
  intro found
  change w' _ >>= (fun p => k' p.1 p.2) = δ.result _ (w found >>= fun p => k p.1 p.2)
  rw [hw found]
  cases w found with
  | error cause => rfl
  | ok answer => exact hk answer.1 answer.2

theorem retraces_ite {c : Prop} [Decidable c] {v w : StateT (List Triple) (Except Failure) α}
    {v' w' : StateT (List Triple) (Except Failure) α'} (hv : δ.Retraces f v v')
    (hw : δ.Retraces f w w') : δ.Retraces f (if c then v else w) (if c then v' else w') := by
  split
  · exact hv
  · exact hw

theorem retraces_anyM {p : α → StateT (List Triple) (Except Failure) Bool}
    {p' : α' → StateT (List Triple) (Except Failure) Bool}
    (hp : ∀ a, δ.Retraces id (p a) (p' (f a))) (as : List α) :
    δ.Retraces id (as.anyM p) ((as.map f).anyM p') := by
  induction as with
  | nil => exact retraces_pure false
  | cons a as ih =>
      refine retraces_bind (hp a) fun answer => ?_
      cases answer with
      | true => exact retraces_pure true
      | false => exact ih

theorem retraces_allM {p : α → StateT (List Triple) (Except Failure) Bool}
    {p' : α' → StateT (List Triple) (Except Failure) Bool}
    (hp : ∀ a, δ.Retraces id (p a) (p' (f a))) (as : List α) :
    δ.Retraces id (as.allM p) ((as.map f).allM p') := by
  induction as with
  | nil => exact retraces_pure true
  | cons a as ih =>
      refine retraces_bind (hp a) fun answer => ?_
      cases answer with
      | true => exact ih
      | false => exact retraces_pure false

variable [Graph γ] {Rel : γ → γ → Prop} {n : Network} {e : Engine γ} {base : γ} {world : World}

/-- The image of an engine finds the images of the grounds. -/
theorem retraces_groundedWithin (hRel : δ.Bisimulates Rel) (h : δ.Ties Rel n e base world)
    (depth : Nat) (path : List Triple) (t : Triple) :
    δ.Retraces id (e.groundedWithin depth path t)
      ((δ.engine e base world).groundedWithin depth (path.map δ.triple) (δ.triple t)) := by
  induction depth generalizing path t with
  | zero => exact retraces_pure false
  | succ depth ih =>
      have hcommitted : (δ.engine e base world).committed.contains (δ.triple t) =
          e.committed.contains t := OrderedSet.contains_recode δ.tripleCode _ t
      have hbase : Graph.contains (δ.engine e base world).base (δ.triple t) =
          δ.access id (Graph.contains e.base t) := hRel.contains h.related t
      have hdeduced : (δ.engine e base world).deductions.contains (δ.triple t) =
          e.deductions.contains t := δ.contains_graph e.deductions t
      have hlisted : ∀ ts : List Triple,
          (ts.map δ.triple).contains (δ.triple t) = ts.contains t :=
        fun ts => contains_map_code δ.tripleCode ts t
      unfold Engine.groundedWithin
      rw [hcommitted, hbase, hdeduced, hlisted, δ.supporters_engine, δ.ofGraph_access]
      refine retraces_bind retraces_get fun found => ?_
      rw [hlisted]
      refine retraces_ite (retraces_pure true) ?_
      refine retraces_bind (retraces_lift _) fun stored => ?_
      refine retraces_ite (retraces_pure true) (retraces_ite (retraces_pure false) ?_)
      refine retraces_bind (retraces_anyM (fun a => ?_) _) fun grounded => ?_
      · rw [δ.matchedBy_engine]
        exact retraces_allM (fun u => ih (t :: path) u) _
      · exact retraces_ite (retraces_bind (retraces_found t) fun _ => retraces_pure grounded)
          (retraces_pure grounded)

theorem isGrounded_engine (hRel : δ.Bisimulates Rel) (h : δ.Ties Rel n e base world)
    (t : Triple) :
    (δ.engine e base world).isGrounded (δ.triple t) = δ.result id (e.isGrounded t) := by
  have hgrounded := retraces_groundedWithin hRel h (e.deductions.size + 1) [] t []
  change Prod.fst <$> (δ.engine e base world).groundedWithin _ _ _ _ =
    δ.result id (Prod.fst <$> e.groundedWithin _ _ _ _)
  rw [show (δ.engine e base world).deductions.size = e.deductions.size from rfl]
  rw [List.map_nil] at hgrounded
  rw [hgrounded]
  cases e.groundedWithin (e.deductions.size + 1) [] t [] <;> rfl

end Retracing

end Delay

namespace Work

variable {γ α α' β β' : Type}

/-- The second result is the delayed image of the first. -/
inductive Echoes (δ : Delay) (Rel : γ → γ → Prop) (n : Network) (f : α → α') :
    EStateM.Result Failure (Engine γ) α → EStateM.Result Failure (Engine γ) α' → Prop where
  | ok {a : α} {e : Engine γ} {base : γ} {world : World} : δ.Ties Rel n e base world →
      Echoes δ Rel n f (.ok a e) (.ok (f a) (δ.engine e base world))
  | error {cause : Failure} {e : Engine γ} {base : γ} {world : World} : δ.Ties Rel n e base world →
      Echoes δ Rel n f (.error cause e) (.error (δ.failure cause) (δ.engine e base world))

/-- On the image of an engine the second work does the image of what the first does. -/
def Imitates (δ : Delay) (Rel : γ → γ → Prop) (n : Network) (f : α → α') (w : Work γ α)
    (w' : Work γ α') : Prop :=
  ∀ e base world, δ.Ties Rel n e base world → Echoes δ Rel n f (w e) (w' (δ.engine e base world))

variable {δ : Delay} {Rel : γ → γ → Prop} {n : Network} {f : α → α'} {g : β → β'}

theorem imitates_pure (a : α) :
    Imitates δ Rel n f (pure a : Work γ α) (pure (f a) : Work γ α') :=
  fun _ _ _ h => .ok h

theorem imitates_throw (cause : Failure) :
    Imitates δ Rel n f (throw cause : Work γ α) (throw (δ.failure cause) : Work γ α') :=
  fun _ _ _ h => .error h

theorem imitates_set {e e' : Engine γ} {base : γ} {world : World}
    (h : δ.Ties Rel n e base world) (he : e' = δ.engine e base world) :
    Imitates δ Rel n id (set e : Work γ PUnit) (set e' : Work γ PUnit) :=
  fun _ _ _ _ => he ▸ Echoes.ok (f := id) (a := PUnit.unit) h

theorem imitates_modify {change change' : Engine γ → Engine γ}
    (hties : ∀ e base world, δ.Ties Rel n e base world → δ.Ties Rel n (change e) base world)
    (himage : ∀ e base world,
      change' (δ.engine e base world) = δ.engine (change e) base world) :
    Imitates δ Rel n id (modify change : Work γ PUnit) (modify change' : Work γ PUnit) := by
  intro e base world h
  change Echoes δ Rel n id (.ok PUnit.unit (change e)) (.ok PUnit.unit (change' _))
  rw [himage]
  exact .ok (hties e base world h)

theorem imitates_attempt (result : Except Failure α) :
    Imitates δ Rel n f (attempt result : Work γ α) (attempt (δ.result f result)) := by
  cases result with
  | ok a => exact imitates_pure a
  | error cause => exact imitates_throw cause

theorem imitates_access (result : Except GraphError α) :
    Imitates δ Rel n f (access result : Work γ α) (access (δ.access f result)) := by
  rw [access, access, δ.ofGraph_access]
  exact imitates_attempt _

theorem imitates_bind {w : Work γ α} {w' : Work γ α'} {k : α → Work γ β} {k' : α' → Work γ β'}
    (hw : Imitates δ Rel n f w w') (hk : ∀ a, Imitates δ Rel n g (k a) (k' (f a))) :
    Imitates δ Rel n g (w >>= k) (w' >>= k') := by
  intro e base world h
  change Echoes δ Rel n g (EStateM.bind w k e) (EStateM.bind w' k' _)
  unfold EStateM.bind
  have hfirst := hw e base world h
  generalize w e = result at hfirst
  generalize w' (δ.engine e base world) = result' at hfirst
  cases hfirst with
  | ok h => exact hk _ _ _ _ h
  | error h => exact .error h

/-- What works go on from an engine and its image may use that they are these. -/
theorem imitates_get_bind {k : Engine γ → Work γ α} {k' : Engine γ → Work γ α'}
    (hk : ∀ e base world, δ.Ties Rel n e base world →
      Imitates δ Rel n f (k e) (k' (δ.engine e base world))) :
    Imitates δ Rel n f (get >>= k) (get >>= k') :=
  fun e base world h => hk e base world h e base world h

/-- A change of a graph leads to related graphs, and works go on from them. -/
theorem imitates_change_bind {ρ : Type} {R : ρ → ρ → Prop}
    {result result' : Except GraphError (Bool × ρ)} {k : Bool × ρ → Work γ α}
    {k' : Bool × ρ → Work γ α'} (hresult : δ.Changes R result result')
    (hk : ∀ done s s', R s s' → Imitates δ Rel n f (k (done, s)) (k' (done, s'))) :
    Imitates δ Rel n f (access result >>= k) (access result' >>= k') := by
  cases hresult with
  | ok h => exact hk _ _ _ h
  | error => exact fun _ _ _ h => .error h

theorem imitates_ite {c c' : Prop} [Decidable c] [Decidable c'] {v w : Work γ α}
    {v' w' : Work γ α'} (hc : c' ↔ c) (hv : Imitates δ Rel n f v v')
    (hw : Imitates δ Rel n f w w') :
    Imitates δ Rel n f (if c then v else w) (if c' then v' else w') := by
  by_cases h : c
  · rw [if_pos h, if_pos (hc.2 h)]
    exact hv
  · rw [if_neg h, if_neg (h ∘ hc.1)]
    exact hw

theorem imitates_forM {w : α → Work γ PUnit} {w' : α' → Work γ PUnit} {as : List α}
    (hw : ∀ a ∈ as, Imitates δ Rel n id (w a) (w' (f a))) :
    Imitates δ Rel n id (as.forM w) ((as.map f).forM w') := by
  induction as with
  | nil => exact imitates_pure PUnit.unit
  | cons a as ih =>
      exact imitates_bind (hw a List.mem_cons_self) fun _ =>
        ih fun a ha => hw a (List.mem_cons_of_mem _ ha)

theorem imitates_mapM {w : α → Work γ β} {w' : α' → Work γ β'} {as : List α}
    (hw : ∀ a ∈ as, Imitates δ Rel n g (w a) (w' (f a))) :
    Imitates δ Rel n (List.map g) (as.mapM w) ((as.map f).mapM w') := by
  induction as with
  | nil => exact imitates_pure []
  | cons a as ih =>
      rw [List.map_cons, List.mapM_cons, List.mapM_cons]
      refine imitates_bind (hw a List.mem_cons_self) fun b => ?_
      refine imitates_bind (ih fun a ha => hw a (List.mem_cons_of_mem _ ha)) fun bs => ?_
      exact imitates_pure (b :: bs)

/-- Both go through the same items. -/
theorem imitates_forM_same {w w' : α → Work γ PUnit} {as : List α}
    (hw : ∀ a ∈ as, Imitates δ Rel n id (w a) (w' a)) :
    Imitates δ Rel n id (as.forM w) (as.forM w') := by
  have h := imitates_forM (f := id) hw
  rwa [List.map_id] at h

theorem imitates_mapM_same {w w' : α → Work γ β} {as : List α}
    (hw : ∀ a ∈ as, Imitates δ Rel n id (w a) (w' a)) :
    Imitates δ Rel n id (as.mapM w) (as.mapM w') := by
  have h := imitates_mapM (f := id) hw
  rwa [List.map_id, List.map_id_fun] at h

/-! ## Support -/

theorem imitates_count (change : EngineStats → EngineStats) :
    Imitates δ Rel n id (count change : Work γ Unit) (count change) :=
  imitates_modify (fun _ _ _ h => h) fun _ _ _ => rfl

theorem imitates_queue (event : Event) :
    Imitates δ Rel n id (modify fun e => e.queue event : Work γ PUnit)
      (modify fun e => e.queue (δ.event event)) :=
  imitates_modify (fun _ _ _ h => h) fun e base world => (δ.engine_queue e base world event).symm

theorem imitates_setFiring (a : Activation) (firing : Firing) :
    Imitates δ Rel n id (modify fun e => e.setFiring a firing : Work γ PUnit)
      (modify fun e => e.setFiring (δ.activation a) (δ.firing firing)) :=
  imitates_modify (fun _ _ _ h => h) fun e base world =>
    (δ.engine_setFiring e base world a firing).symm

theorem imitates_schedule (a : Activation) :
    Imitates δ Rel n id (modify fun e => e.schedule a : Work γ PUnit)
      (modify fun e => e.schedule (δ.activation a)) :=
  imitates_modify (fun _ _ _ h => h) fun e base world => (δ.engine_schedule e base world a).symm

theorem imitates_suspect (t : Triple) :
    Imitates δ Rel n id (suspect t : Work γ Unit) (suspect (δ.triple t)) := by
  refine imitates_modify (fun _ _ _ h => h) fun e base world => ?_
  have hinsert := OrderedSet.recode_insert δ.tripleCode e.suspects t
  simp only [Delay.engine, Delay.triples, hinsert]
  rfl

theorem imitates_retractDeduction (t : Triple) :
    Imitates δ Rel n id (retractDeduction t : Work γ Bool) (retractDeduction (δ.triple t)) := by
  refine imitates_get_bind fun e base world h => ?_
  refine imitates_change_bind (δ.changes_delete h.reachable t) ?_
  rintro removed deductions _ ⟨hreachable, rfl⟩
  have hties : δ.Ties Rel n { e with deductions } base world :=
    ⟨h.network_eq, h.related, hreachable, h.supply_eq, h.ready⟩
  exact imitates_bind (imitates_set hties rfl) fun _ => imitates_pure removed

variable [Graph γ]

theorem imitates_inBase (hRel : δ.Bisimulates Rel) (t : Triple) :
    Imitates δ Rel n id (inBase t : Work γ Bool) (inBase (δ.triple t)) := by
  refine imitates_get_bind fun e base world h => ?_
  have hcontains := hRel.contains h.related t
  change Imitates δ Rel n id _ (access (Graph.contains base (δ.triple t)))
  rw [hcontains]
  exact imitates_access _

theorem imitates_isVisible (hRel : δ.Bisimulates Rel) (t : Triple) :
    Imitates δ Rel n id (isVisible t : Work γ Bool) (isVisible (δ.triple t)) := by
  refine imitates_get_bind fun e base world h => ?_
  have hcontains := hRel.view_contains h.related e.deductions t
  change Imitates δ Rel n id _ (access (View.contains ⟨base, δ.graph e.deductions⟩ (δ.triple t)))
  rw [hcontains]
  exact imitates_access _

theorem imitates_withdraw (hRel : δ.Bisimulates Rel) (t : Triple) :
    Imitates δ Rel n id (withdraw t : Work γ Unit) (withdraw (δ.triple t)) := by
  refine imitates_bind (imitates_retractDeduction t) fun removed => ?_
  refine imitates_ite Iff.rfl ?_ (imitates_pure PUnit.unit)
  refine imitates_bind (imitates_inBase hRel t) fun stored => ?_
  exact imitates_ite Iff.rfl (imitates_pure PUnit.unit) (imitates_queue (.deleted t))

theorem imitates_leaveSupport (hRel : δ.Bisimulates Rel) (e : Engine γ) (base : γ) (world : World)
    (t : Triple) (firings : OrderedSet Activation) :
    Imitates δ Rel n id (leaveSupport e t firings)
      (leaveSupport (δ.engine e base world) (δ.triple t) (δ.supporters firings)) := by
  have hempty : (δ.supporters firings).isEmpty = firings.isEmpty := OrderedSet.isEmpty_recode _ _
  have hcommitted : (δ.engine e base world).committed.contains (δ.triple t) =
      e.committed.contains t := OrderedSet.contains_recode δ.tripleCode _ t
  refine imitates_ite (by rw [hempty]) ?_ ?_
  · refine imitates_bind (imitates_modify (fun _ _ _ h => h) fun e base world => ?_) fun _ => ?_
    · have hsupport := OrderedMap.recode_erase δ.tripleCode δ.supporters e.support t
      simp only [Delay.engine, Delay.support, hsupport]
      rfl
    · exact imitates_ite (by rw [hcommitted]) (imitates_pure PUnit.unit)
        (imitates_withdraw hRel t)
  · refine imitates_bind (imitates_modify (fun _ _ _ h => h) fun e base world => ?_)
      fun _ => imitates_suspect t
    have hsupport := OrderedMap.recode_insert δ.tripleCode δ.supporters e.support t firings
    simp only [Delay.engine, Delay.support, hsupport]
    rfl

theorem imitates_unsupport (hRel : δ.Bisimulates Rel) (a : Activation) (c : CompiledRule)
    (matched : List (Option Triple)) (t : Triple) :
    Imitates δ Rel n id (unsupport a c matched t : Work γ Unit)
      (unsupport (δ.activation a) c (matched.map (Option.map δ.triple)) (δ.triple t)) := by
  rw [unsupport_eq, unsupport_eq]
  refine imitates_get_bind fun e base world h => ?_
  have hget : (δ.engine e base world).support.get? (δ.triple t) =
      (e.support.get? t).map δ.supporters := OrderedMap.get?_recode δ.tripleCode δ.supporters _ t
  rw [hget]
  cases e.support.get? t with
  | none => exact imitates_throw _
  | some firings =>
      have hfirings : (δ.supporters firings).contains (δ.activation a) = firings.contains a :=
        OrderedSet.contains_recode δ.activationCode firings a
      have herase : (δ.supporters firings).erase (δ.activation a) =
          δ.supporters (firings.erase a) := (OrderedSet.recode_erase δ.activationCode _ a).symm
      have hleft := imitates_leaveSupport (n := n) hRel e base world t (firings.erase a)
      simp only [Option.map_some, hfirings, herase]
      refine imitates_ite Iff.rfl (imitates_throw (.invariant (.notSupporting c.label t))) ?_
      refine imitates_ite Iff.rfl (imitates_bind (imitates_set h ?_) fun _ => hleft) hleft
      have hremove := δ.log_remove e.derivations ⟨t, c.rule, matched⟩
      simp only [Delay.engine, hremove]
      rfl

theorem imitates_retract (hRel : δ.Bisimulates Rel) (a : Activation) (triples : List Triple)
    (firing : Firing) :
    Imitates δ Rel n id (retract a triples firing : Work γ Unit)
      (retract (δ.activation a) (triples.map δ.triple) (δ.firing firing)) := by
  refine imitates_get_bind fun e base world h => ?_
  have hrule := δ.rule?_engine e base world a.rule
  cases firing with
  | fired conclusions hidden committed =>
      cases committed with
      | true => exact imitates_pure PUnit.unit
      | false =>
          simp only [Delay.firing]
          rw [show (δ.activation a).rule = a.rule from rfl, hrule]
          cases e.network.rule? a.rule with
          | none => exact imitates_pure PUnit.unit
          | some c =>
              refine imitates_bind (imitates_count _) fun _ => ?_
              refine imitates_bind (imitates_modify (fun _ _ _ h => h) fun e base world => ?_)
                fun _ => ?_
              · have hhidden := δ.hidden_foldl δ.hidden_unhide hidden e.hidden
                simp only [Delay.engine, hhidden]
              · refine imitates_forM fun t _ => ?_
                rw [c.matched_map]
                exact imitates_unsupport hRel a c _ t
  | pending => exact imitates_pure PUnit.unit
  | blocked => exact imitates_pure PUnit.unit

theorem imitates_retractTokens (hRel : δ.Bisimulates Rel) (t : Triple) (rule : Nat) :
    Imitates δ Rel n id (retractTokens t rule : Work γ Unit)
      (retractTokens (δ.triple t) rule) := by
  refine imitates_get_bind fun e base world h => ?_
  have hremove := δ.removeHolding_memory (e.memory rule) t
  rw [δ.memory_engine e base world rule, hremove]
  refine imitates_bind (imitates_set h (δ.engine_setMemory _ _ _ _ _).symm) fun _ => ?_
  exact imitates_forM fun b _ => imitates_retract hRel ⟨rule, b.id⟩ b.triples b.firing

theorem imitates_checkSupport (hRel : δ.Bisimulates Rel) (t : Triple) :
    Imitates δ Rel n id (checkSupport t : Work γ Unit) (checkSupport (δ.triple t)) := by
  refine imitates_get_bind fun e base world _ => ?_
  have hcommitted : (δ.engine e base world).committed.contains (δ.triple t) =
      e.committed.contains t := OrderedSet.contains_recode δ.tripleCode _ t
  refine imitates_ite (by rw [hcommitted]) (imitates_pure PUnit.unit) ?_
  refine imitates_bind (imitates_inBase hRel t) fun stored => ?_
  refine imitates_ite Iff.rfl (imitates_pure PUnit.unit) ?_
  refine imitates_get_bind fun e base world _ => ?_
  have hdeduced : (δ.engine e base world).deductions.contains (δ.triple t) =
      e.deductions.contains t := δ.contains_graph e.deductions t
  refine imitates_ite (by rw [hdeduced]) (imitates_pure PUnit.unit) ?_
  refine imitates_bind (imitates_count _) fun _ => imitates_get_bind fun e base world h => ?_
  rw [Delay.isGrounded_engine hRel h]
  refine imitates_bind (imitates_attempt _) fun grounded => ?_
  refine imitates_ite Iff.rfl (imitates_pure PUnit.unit) ?_
  exact imitates_bind (imitates_count _) fun _ => imitates_withdraw hRel t

/-! ## Matching -/

omit [Graph γ] in
theorem imitates_store (c : CompiledRule) (s : Subscriber) (m : PartialMatch) :
    Imitates δ Rel n (Option.map δ.token) (store c s m : Work γ (Option TokenId))
      (store c s (δ.partialMatch m)) := by
  refine imitates_get_bind fun e base world h => ?_
  have hinsert := δ.insert_memory (e.memory s.rule) e.nextToken
    ⟨m.parent, m.triple, s.level, m.bindings, c.joinKey (s.level + 1) m.bindings, []⟩
  have htoken : δ.tokenRecord
      ⟨m.parent, m.triple, s.level, m.bindings, c.joinKey (s.level + 1) m.bindings, []⟩ =
      ⟨m.parent.map δ.token, δ.triple m.triple, s.level, δ.bindings m.bindings,
        c.joinKey (s.level + 1) (δ.bindings m.bindings), []⟩ := by
    rw [c.joinKey_bindings]
    rfl
  rw [htoken, ← δ.memory_engine e base world] at hinsert
  dsimp only
  rw [show (δ.engine e base world).nextToken = δ.token e.nextToken from rfl]
  simp only [Delay.partialMatch]
  rw [hinsert]
  cases (e.memory s.rule).insert e.nextToken _ with
  | none => exact imitates_pure none
  | some memory =>
      refine imitates_bind (imitates_set h ?_) fun _ => imitates_pure (some e.nextToken)
      rw [← δ.engine_setMemory]
      simp only [Delay.engine, Delay.token, Nat.add_right_comm]

omit [Graph γ] in
theorem imitates_complete (c : CompiledRule) (s : Subscriber) (m : PartialMatch) :
    Imitates δ Rel n id (complete c s m : Work γ Unit) (complete c s (δ.partialMatch m)) := by
  refine imitates_bind (imitates_store c s m) fun stored => ?_
  cases stored with
  | none => exact imitates_pure PUnit.unit
  | some id => exact imitates_schedule ⟨s.rule, id⟩

theorem imitates_extend (hRel : δ.Bisimulates Rel) (c : CompiledRule) (s : Subscriber)
    {next : Triple} (hnext : δ.triple next = next) (m : PartialMatch) :
    Imitates δ Rel n (List.map δ.partialMatch)
      (extend c s next m : Work γ (List PartialMatch)) (extend c s next (δ.partialMatch m)) := by
  refine imitates_bind (imitates_store c s m) fun stored => ?_
  cases stored with
  | none => exact imitates_pure []
  | some id =>
      refine imitates_get_bind fun e base world h => ?_
      have hpattern : TriplePattern.ofTriple ((δ.partialMatch m).bindings.partialInstantiate next) =
          δ.pattern (.ofTriple (m.bindings.partialInstantiate next)) := by
        have hpartial := δ.partialInstantiate_triple m.bindings next
        rw [hnext] at hpartial
        rw [← δ.ofTriple_triple, ← hpartial]
        rfl
      have hfind := hRel.view_find h.related e.deductions
        (.ofTriple (m.bindings.partialInstantiate next))
      rw [hpattern]
      change Imitates δ Rel n _ _ (access (View.find ⟨base, δ.graph e.deductions⟩ _) >>= _)
      rw [hfind]
      refine imitates_bind (imitates_access _) fun facts => ?_
      rw [δ.extensions_partialMatch m id hnext]
      exact imitates_pure _

theorem imitates_grow (hRel : δ.Bisimulates Rel) (c : CompiledRule) (rule level : Nat)
    {following : List Triple} (hfollowing : ∀ p ∈ following, δ.triple p = p)
    (found : List PartialMatch) :
    Imitates δ Rel n id (grow c rule level following found : Work γ Unit)
      (grow c rule level following (found.map δ.partialMatch)) := by
  induction following generalizing level found with
  | nil => exact imitates_forM fun m _ => imitates_complete c ⟨rule, level⟩ m
  | cons next following ih =>
      have hnext := hfollowing next List.mem_cons_self
      refine imitates_bind (imitates_mapM fun m _ => imitates_extend hRel c _ hnext m)
        fun extended => ?_
      rw [← List.map_flatten]
      exact ih (level + 1) (fun p hp => hfollowing p (List.mem_cons_of_mem _ hp)) _

theorem imitates_activate (hRel : δ.Bisimulates Rel) (hn : n.Timeless δ) (t : Triple)
    (s : Subscriber) :
    Imitates δ Rel n id (activate t s : Work γ Unit) (activate (δ.triple t) s) := by
  refine imitates_get_bind fun e base world h => ?_
  rw [δ.rule?_engine]
  cases hc : e.network.rule? s.rule with
  | none => exact imitates_pure PUnit.unit
  | some c =>
      rw [h.network_eq] at hc
      have hpatterns : ∀ p ∈ (c.patterns.map Prod.snd).drop s.level, δ.triple p = p := by
        intro p hp
        obtain ⟨pattern, hpattern, rfl⟩ := List.mem_map.1 (List.mem_of_mem_drop hp)
        exact (hn.rule s.rule c hc).patterns pattern hpattern
      dsimp only
      cases hdrop : (c.patterns.map Prod.snd).drop s.level with
      | nil => exact imitates_pure PUnit.unit
      | cons pattern following =>
          rw [hdrop] at hpatterns
          dsimp only
          rw [δ.joins_engine e base world c s (hpatterns pattern List.mem_cons_self)]
          exact imitates_grow hRel c s.rule s.level
            (fun p hp => hpatterns p (List.mem_cons_of_mem _ hp)) _

/-! ## Firing -/

omit [Graph γ] in
theorem imitates_report (c : CompiledRule) (conclusions conclusions' : List Triple) :
    Imitates δ Rel n id (report c conclusions : Work γ Unit) (report c conclusions') := by
  intro e base world h
  have hprinted : ∀ line line' : String,
      δ.Ties Rel n { e with world := e.world.print line } base (world.print line') := fun _ _ => h
  change Echoes δ Rel n id (.ok PUnit.unit (if e.traceFirings then _ else e))
    (.ok PUnit.unit (if e.traceFirings then _ else δ.engine e base world))
  by_cases htrace : e.traceFirings = true
  · rw [if_pos htrace, if_pos htrace]
    exact .ok (hprinted _ _)
  · rw [if_neg htrace, if_neg htrace]
    exact .ok h

omit [Graph γ] in
theorem imitates_credit (a : Activation) (c : CompiledRule) (matched : List (Option Triple))
    (t : Triple) :
    Imitates δ Rel n id (credit a c matched t : Work γ Unit)
      (credit (δ.activation a) c (matched.map (Option.map δ.triple)) (δ.triple t)) := by
  have hrecord : ∀ l : DerivationLog, δ.log (l.record ⟨t, c.rule, matched⟩).2 =
      ((δ.log l).record ⟨δ.triple t, c.rule, matched.map (Option.map δ.triple)⟩).2 :=
    fun l => δ.log_record l ⟨t, c.rule, matched⟩
  have hcommit : ∀ s : OrderedSet Triple,
      δ.triples (s.insert t) = (δ.triples s).insert (δ.triple t) :=
    fun s => OrderedSet.recode_insert δ.tripleCode s t
  have hsupport : ∀ s : OrderedMap Triple (OrderedSet Activation),
      δ.support (s.alter t (·.insert a)) =
        (δ.support s).alter (δ.triple t) (·.insert (δ.activation a)) :=
    fun s => OrderedMap.recode_alter δ.tripleCode δ.supporters s t rfl fun activations =>
      OrderedSet.recode_insert δ.activationCode activations a
  refine imitates_modify (fun e _ _ h => ?_) fun e base world => ?_
  · cases e.logging <;> cases c.destructive <;> exact h
  · rw [show (δ.engine e base world).logging = e.logging from rfl]
    cases e.logging <;> cases c.destructive <;>
      simp [Delay.engine, hrecord, hcommit, hsupport]

theorem imitates_assert (hRel : δ.Bisimulates Rel) (t : Triple) :
    Imitates δ Rel n id (assert t : Work γ Unit) (assert (δ.triple t)) := by
  refine imitates_get_bind fun e base world h => ?_
  refine imitates_change_bind (δ.changes_add h.reachable t) ?_
  rintro added deductions _ ⟨hreachable, rfl⟩
  have hties : δ.Ties Rel n { e with deductions } base world :=
    ⟨h.network_eq, h.related, hreachable, h.supply_eq, h.ready⟩
  refine imitates_bind (imitates_set hties rfl) fun _ => ?_
  refine imitates_ite Iff.rfl ?_ (imitates_pure PUnit.unit)
  refine imitates_bind (imitates_inBase hRel t) fun stored => ?_
  exact imitates_ite Iff.rfl (imitates_pure PUnit.unit) (imitates_queue (.added t))

theorem imitates_removeEverywhere (hRel : δ.Bisimulates Rel) (announced : Bool) (t : Triple) :
    Imitates δ Rel n id (removeEverywhere announced t : Work γ Unit)
      (removeEverywhere announced (δ.triple t)) := by
  refine imitates_get_bind fun e base world h => ?_
  refine imitates_change_bind (hRel.delete h.related t) fun stored deleted deleted' hdeleted => ?_
  have hties : δ.Ties Rel n { e with base := deleted } deleted' world :=
    ⟨h.network_eq, hdeleted, h.reachable, h.supply_eq, h.ready⟩
  refine imitates_bind (imitates_set hties rfl) fun _ => ?_
  refine imitates_bind (imitates_retractDeduction t) fun deduced => ?_
  refine imitates_bind (imitates_modify (fun _ _ _ h => h) fun e base world => ?_) fun _ => ?_
  · have hcommitted := OrderedSet.recode_erase δ.tripleCode e.committed t
    simp only [Delay.engine, Delay.triples, hcommitted]
    rfl
  · exact imitates_ite Iff.rfl (imitates_queue (.deleted t)) (imitates_pure PUnit.unit)

theorem imitates_settleFiring (hRel : δ.Bisimulates Rel) (a : Activation) (c : CompiledRule)
    (matched : List (Option Triple)) (conclusions : List Triple) (effects : Effects) :
    Imitates δ Rel n id (settleFiring a c matched conclusions effects : Work γ Unit)
      (settleFiring (δ.activation a) c (matched.map (Option.map δ.triple))
        (conclusions.map δ.triple) (δ.effects effects)) := by
  refine imitates_bind (imitates_count _) fun _ => ?_
  refine imitates_bind (imitates_report c _ _) fun _ => ?_
  refine imitates_bind (imitates_modify (fun _ _ _ h => h) fun e base world => ?_) fun _ => ?_
  · have hhidden := δ.hidden_foldl δ.hidden_hideOnce effects.hidden e.hidden
    simp only [Delay.engine, hhidden]
    rfl
  refine imitates_bind (imitates_setFiring a (.fired conclusions effects.hidden c.destructive))
    fun _ => ?_
  refine imitates_bind (imitates_forM fun t _ => ?_) fun _ => ?_
  · exact imitates_bind (imitates_credit a c matched t) fun _ => imitates_assert hRel t
  · exact imitates_bind (imitates_forM fun t _ => imitates_removeEverywhere hRel true t)
      fun _ => imitates_forM fun t _ => imitates_removeEverywhere hRel false t

theorem imitates_fire (hRel : δ.Bisimulates Rel) (hn : n.Timeless δ) (a : Activation) :
    Imitates δ Rel n id (fire a : Work γ Unit) (fire (δ.activation a)) := by
  refine imitates_get_bind fun e base world h => ?_
  rw [δ.firing?_engine, show (δ.activation a).rule = a.rule from rfl, δ.rule?_engine]
  cases e.firing? a with
  | none => exact imitates_pure PUnit.unit
  | some firing =>
      cases firing with
      | fired conclusions hidden committed => exact imitates_pure PUnit.unit
      | blocked => exact imitates_pure PUnit.unit
      | pending =>
          cases hc : e.network.rule? a.rule with
          | none => exact imitates_pure PUnit.unit
          | some c =>
              have hrule : c.Timeless δ e.network.registry := by
                rw [h.network_eq] at hc ⊢
                exact hn.rule a.rule c hc
              simp only [Option.map_some, Delay.firing]
              rw [δ.matchedBy_engine, hrule.bindings, c.matched_map]
              refine imitates_bind (imitates_attempt _) fun bindings => ?_
              have hctx : δ.Contexts
                  (.ofView e.view c.label (c.matched (e.matchedBy a)) false)
                  (.ofView (δ.engine e base world).view c.label
                    ((c.matched (e.matchedBy a)).map (Option.map δ.triple)) false) :=
                δ.contexts_ofView hRel h.related _ _ _ _
              have hst : δ.States { bindings, world := e.world }
                  { bindings := δ.bindings bindings, world := (δ.engine e base world).world } :=
                ⟨rfl, rfl, h.supply_eq, h.ready⟩
              have hevaluate := hrule.evaluate hctx hst
              rw [show (δ.engine e base world).network.registry = e.network.registry from rfl]
              generalize c.evaluate e.network.registry _ { bindings, world := e.world } = result
                at hevaluate ⊢
              generalize c.evaluate e.network.registry _
                { bindings := δ.bindings bindings, world := (δ.engine e base world).world } =
                result' at hevaluate ⊢
              obtain ⟨answer, st⟩ := result
              obtain ⟨answer', st'⟩ := result'
              obtain ⟨rfl, hstates⟩ := hevaluate
              have hties : δ.Ties Rel n { e with world := st.world } base st'.world :=
                ⟨h.network_eq, h.related, h.reachable, hstates.supply, hstates.ready⟩
              refine imitates_bind (imitates_set hties rfl) fun _ => ?_
              cases answer with
              | none =>
                  exact imitates_bind (imitates_count _) fun _ => imitates_setFiring a .blocked
              | some conclusions =>
                  dsimp only at hstates
                  rw [hstates.effects]
                  exact imitates_settleFiring hRel a c _ conclusions st.effects

/-! ## Asking again -/

theorem imitates_stillHolds (hRel : δ.Bisimulates Rel) {c : CompiledRule}
    (hc : c.Timeless δ n.registry) (triples : List Triple) :
    Imitates δ Rel n id (stillHolds c triples : Work γ Bool)
      (stillHolds c (triples.map δ.triple)) := by
  refine imitates_get_bind fun e base world h => ?_
  rw [hc.bindings, c.matched_map]
  refine imitates_bind (imitates_attempt _) fun bindings => ?_
  have hctx : δ.Contexts (.ofView e.view c.label (c.matched triples) true)
      (.ofView (δ.engine e base world).view c.label
        ((c.matched triples).map (Option.map δ.triple)) true) :=
    δ.contexts_ofView hRel h.related _ _ _ _
  have hst : δ.States { bindings, world := e.world }
      { bindings := δ.bindings bindings, world := (δ.engine e base world).world } :=
    ⟨rfl, rfl, h.supply_eq, h.ready⟩
  have hheld := hc.heldSpeculatively hctx hst
  rw [← h.network_eq] at hheld
  dsimp only
  rw [show (δ.engine e base world).network.registry = e.network.registry from rfl]
  generalize allHold _ c.calls { bindings, world := e.world } = result at hheld ⊢
  generalize allHold _ c.calls
    { bindings := δ.bindings bindings, world := (δ.engine e base world).world } = result' at hheld ⊢
  obtain ⟨held, st⟩ := result
  obtain ⟨held', st'⟩ := result'
  obtain ⟨hsame, hstates⟩ := hheld
  obtain rfl : held' = held := hsame
  have hties : δ.Ties Rel n { e with world := st.world } base st'.world :=
    ⟨h.network_eq, h.related, h.reachable, hstates.supply, hstates.ready⟩
  exact imitates_bind (imitates_set hties rfl) fun _ => imitates_pure held'

theorem imitates_reconsider (hRel : δ.Bisimulates Rel) {c : CompiledRule}
    (hc : c.Timeless δ n.registry) (a : Activation) (fired : Bool) :
    Imitates δ Rel n id (reconsider c a fired : Work γ Bool)
      (reconsider c (δ.activation a) fired) := by
  refine imitates_get_bind fun e base world _ => ?_
  have hfiring : ((δ.engine e base world).firing? (δ.activation a)).getD .blocked =
      δ.firing ((e.firing? a).getD .blocked) := by
    rw [δ.firing?_engine]
    cases e.firing? a <;> rfl
  rw [δ.matchedBy_engine, hfiring]
  refine imitates_bind (imitates_stillHolds hRel hc _) fun held => ?_
  refine imitates_ite Iff.rfl ?_ (imitates_ite Iff.rfl ?_ (imitates_pure false))
  · refine imitates_bind (imitates_setFiring a .blocked) fun _ => ?_
    exact imitates_bind (imitates_retract hRel a _ _) fun _ => imitates_pure true
  · exact imitates_bind (imitates_schedule a) fun _ => imitates_pure true

theorem imitates_recheckRule (hRel : δ.Bisimulates Rel) {c : CompiledRule}
    (hc : c.Timeless δ n.registry) (rule : Nat) :
    Imitates δ Rel n id (recheckRule c rule : Work γ Bool) (recheckRule c rule) := by
  refine imitates_get_bind fun e base world _ => ?_
  rw [δ.memory_engine, δ.revisable_memory]
  refine imitates_bind (imitates_mapM fun entry _ =>
    imitates_reconsider hRel hc ⟨rule, entry.1⟩ entry.2) fun answers => ?_
  rw [List.map_id]
  exact imitates_pure _

theorem imitates_recheck (hRel : δ.Bisimulates Rel) (hn : n.Timeless δ) :
    Imitates δ Rel n id (recheck : Work γ Bool) recheck := by
  refine imitates_get_bind fun e base world h => ?_
  have hrechecked : ∀ entry ∈ e.network.rules.zipIdx.filter fun entry => entry.1.nonMonotonic,
      Imitates δ Rel n id (recheckRule entry.1 entry.2 : Work γ Bool)
        (recheckRule entry.1 entry.2) := by
    intro entry hentry
    have hrule : e.network.rule? entry.2 = some entry.1 :=
      List.mem_zipIdx_iff_getElem?.1 (List.mem_filter.1 hentry).1
    rw [h.network_eq] at hrule
    exact imitates_recheckRule hRel (hn.rule entry.2 entry.1 hrule) entry.2
  exact imitates_bind (imitates_mapM_same hrechecked) fun answers => imitates_pure _

/-! ## Runs -/

theorem imitates_propagate (hRel : δ.Bisimulates Rel) (hn : n.Timeless δ) (event : Event) :
    Imitates δ Rel n id (propagate event : Work γ Unit) (propagate (δ.event event)) := by
  cases event with
  | added t =>
      refine imitates_bind (imitates_isVisible hRel t) fun visible => ?_
      refine imitates_ite Iff.rfl ?_ (imitates_pure PUnit.unit)
      refine imitates_bind (imitates_count _) fun _ => imitates_get_bind fun e base world h => ?_
      rw [show (δ.engine e base world).network = e.network from rfl, h.network_eq,
        hn.activations]
      exact imitates_forM_same fun s _ => imitates_activate hRel hn t s
  | deleted t =>
      refine imitates_bind (imitates_isVisible hRel t) fun visible => ?_
      refine imitates_ite Iff.rfl (imitates_pure PUnit.unit) ?_
      refine imitates_bind (imitates_count _) fun _ => imitates_get_bind fun e base world h => ?_
      rw [show (δ.engine e base world).network = e.network from rfl, h.network_eq,
        hn.activations]
      exact imitates_forM_same fun rule _ => imitates_retractTokens hRel t rule

theorem imitates_step (hRel : δ.Bisimulates Rel) (hn : n.Timeless δ) (rechecks : Nat) :
    Imitates δ Rel n id (step rechecks : Work γ (Option Nat)) (step rechecks) := by
  refine imitates_get_bind fun e base world h => ?_
  have hpop : (δ.engine e base world).suspects.pop? =
      e.suspects.pop?.map fun popped => (δ.triple popped.1, δ.triples popped.2) :=
    OrderedSet.pop?_recode δ.tripleCode e.suspects
  rw [show (δ.engine e base world).events = e.events.map δ.event from rfl,
    show (δ.engine e base world).agenda = e.agenda.map δ.activation from rfl, hpop]
  cases e.events with
  | cons event events =>
      refine imitates_bind (imitates_set h rfl) fun _ => ?_
      exact imitates_bind (imitates_propagate hRel hn event) fun _ => imitates_pure _
  | nil =>
      cases e.agenda with
      | cons a agenda =>
          refine imitates_bind (imitates_set h rfl) fun _ => ?_
          exact imitates_bind (imitates_fire hRel hn a) fun _ => imitates_pure _
      | nil =>
          cases e.suspects.pop? with
          | some popped =>
              refine imitates_bind (imitates_set h rfl) fun _ => ?_
              exact imitates_bind (imitates_checkSupport hRel popped.1) fun _ => imitates_pure _
          | none =>
              refine imitates_ite Iff.rfl (imitates_pure none) ?_
              refine imitates_bind (imitates_count _) fun _ => ?_
              refine imitates_bind (imitates_recheck hRel hn) fun more => ?_
              exact imitates_ite Iff.rfl (imitates_pure (some (rechecks + 1))) (imitates_pure none)

omit [Graph γ] in
theorem imitates_scheduleOnce (rule : Nat) :
    Imitates δ Rel n id (scheduleOnce rule : Work γ Unit) (scheduleOnce rule) := by
  refine imitates_modify (fun _ _ _ h => h) fun e base world => ?_
  have hschedule := δ.engine_schedule e base world ⟨rule, e.nextToken⟩
  have hactivation : δ.activation ⟨rule, e.nextToken⟩ =
      ⟨rule, (δ.engine e base world).nextToken⟩ := rfl
  have hnext : (δ.engine e base world).nextToken + 1 = δ.token (e.nextToken + 1) :=
    Nat.add_right_comm _ _ _
  rw [← hactivation, ← hschedule, hnext]
  rfl

theorem imitates_restart (hRel : δ.Bisimulates Rel) :
    Imitates δ Rel n id (restart : Work γ Unit) restart := by
  have hreset : Imitates δ Rel n id (modify Engine.reset : Work γ PUnit) (modify Engine.reset) := by
    refine imitates_modify (fun e base world h => ?_) fun e base world => ?_
    · exact ⟨h.network_eq, h.related, .empty, h.supply_eq, h.ready⟩
    · exact δ.reset_engine e base world
  refine imitates_bind hreset fun _ => imitates_get_bind fun e base world h => ?_
  have hfind := hRel.find h.related .any
  rw [show (δ.engine e base world).base = base from rfl, ← δ.pattern_any, hfind, δ.pattern_any]
  refine imitates_bind (imitates_access _) fun facts => ?_
  refine imitates_bind (imitates_set h ?_) fun _ => ?_
  · simp only [Delay.engine, List.map_map]
    rfl
  · exact imitates_forM_same fun entry _ => imitates_scheduleOnce entry.2

end Work

/-! ## Operations -/

/-- The second outcome is the delayed image of the first. -/
inductive Outcome.Echoes {γ α : Type} (δ : Delay) (Rel : γ → γ → Prop) (n : Network) :
    Outcome (Engine γ) α → Outcome (Engine γ) α → Prop where
  | done {a : α} {e : Engine γ} {base : γ} {world : World} : δ.Ties Rel n e base world →
      Echoes δ Rel n (.done a e) (.done a (δ.engine e base world))
  | failed {cause : Failure} {e : Engine γ} {base : γ} {world : World} :
      δ.Ties Rel n e base world →
      Echoes δ Rel n (.failed cause e) (.failed (δ.failure cause) (δ.engine e base world))
  | unfinished : Echoes δ Rel n .unfinished .unfinished

namespace Engine

variable {γ α : Type} [Graph γ] {δ : Delay} {Rel : γ → γ → Prop} {n : Network} {e : Engine γ}
  {base : γ} {world : World} {budget : Nat}

/-- A run from the image of an engine leads to the image of what the run from the engine
leads to. -/
theorem echoes_run (hRel : δ.Bisimulates Rel) (hn : n.Timeless δ) (rechecks : Nat)
    (h : δ.Ties Rel n e base world) :
    Outcome.Echoes δ Rel n (e.run budget rechecks)
      ((δ.engine e base world).run budget rechecks) := by
  induction budget generalizing rechecks e base world with
  | zero => exact .unfinished
  | succ budget ih =>
      have hstep := Work.imitates_step hRel hn rechecks e base world h
      rw [run, run]
      generalize Work.step rechecks e = result at hstep ⊢
      generalize Work.step rechecks (δ.engine e base world) = result' at hstep ⊢
      cases hstep with
      | @ok answer e₁ base₁ world₁ h₁ =>
          cases answer with
          | some rechecks => exact ih rechecks h₁
          | none =>
              have hidle : δ.Ties Rel n { e₁ with state := .idle } base₁ world₁ := h₁
              exact .done hidle
      | @error cause e₁ base₁ world₁ h₁ =>
          have hclosed : δ.Ties Rel n e₁.close base₁ world₁ :=
            ⟨h₁.network_eq, h₁.related, .empty, h₁.supply_eq, h₁.ready⟩
          dsimp only
          rw [δ.close_engine]
          exact .failed hclosed

theorem echoes_operate (hRel : δ.Bisimulates Rel) (hn : n.Timeless δ) {request : Work γ α}
    (hrequest : Work.Imitates δ Rel n id request request) (h : δ.Ties Rel n e base world) :
    Outcome.Echoes δ Rel n (e.operate budget request)
      ((δ.engine e base world).operate budget request) := by
  have hfirst := hrequest e base world h
  rw [operate, operate, show (δ.engine e base world).isClosed = e.isClosed from rfl]
  cases e.isClosed with
  | true =>
      have hclosed : δ.failure .closed = .closed := rfl
      simp only [if_true]
      rw [← hclosed]
      exact .failed h
  | false =>
      simp only [Bool.false_eq_true, if_false]
      generalize request e = result at hfirst ⊢
      generalize request (δ.engine e base world) = result' at hfirst ⊢
      cases hfirst with
      | error h₁ => exact .failed h₁
      | @ok answer e₁ base₁ world₁ h₁ =>
          have hrun : Outcome.Echoes δ Rel n (e₁.run budget 0)
              ((δ.engine e₁ base₁ world₁).run budget 0) := echoes_run hRel hn 0 h₁
          dsimp only
          generalize e₁.run budget 0 = outcome at hrun ⊢
          generalize (δ.engine e₁ base₁ world₁).run budget 0 = outcome' at hrun ⊢
          cases hrun with
          | done h₂ => exact .done h₂
          | failed h₂ => exact .failed h₂
          | unfinished => exact .unfinished

theorem echoes_recompute (hRel : δ.Bisimulates Rel) (hn : n.Timeless δ)
    (h : δ.Ties Rel n e base world) :
    Outcome.Echoes δ Rel n (e.recompute budget) ((δ.engine e base world).recompute budget) :=
  echoes_operate hRel hn (Work.imitates_restart hRel) h

end Engine

end Entailment
