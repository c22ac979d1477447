import Entailment.Proofs.Forward.Books
import Entailment.Proofs.Forward.Operation
import Entailment.Proofs.Forward.Request

/-!
# What lasts whatever is done

A closed engine has forgotten all.  Of any other, what its requests and pieces of work keep
holds whatever has been done.  A property of its conclusions and their support is kept by
all work if it is kept when a firing draws a conclusion, when a conclusion loses a
supporter, and when one is taken out of the deductions.
-/

namespace Entailment

namespace Engine

variable {γ : Type} {e : Engine γ}

/-- A closed engine has forgotten all. -/
structure Silent (e : Engine γ) : Prop where
  isClosed : e.isClosed = true
  hidden_eq : e.hidden = .empty
  firings_eq : e.stats.firings = 0
  retractions_eq : e.stats.retractions = 0
  support_eq : e.support = .empty
  deductions_eq : e.deductions = .empty
  committed_eq : e.committed = .empty
  firing?_eq : ∀ a, e.firing? a = none

theorem silent_close (e : Engine γ) : e.close.Silent where
  isClosed := rfl
  hidden_eq := rfl
  firings_eq := rfl
  retractions_eq := rfl
  support_eq := rfl
  deductions_eq := rfl
  committed_eq := rfl
  firing?_eq a := by
    change (e.reset.memory a.rule).firings.get? a.token = none
    rw [Work.memory_reset]
    rfl

theorem Silent.beside (he : e.Silent) (base : γ) (derivations : DerivationLog)
    (logging traceFirings : Bool) (maxRechecks : Nat) (world : World) :
    Silent { e with base, derivations, logging, traceFirings, maxRechecks, world } :=
  ⟨he.isClosed, he.hidden_eq, he.firings_eq, he.retractions_eq, he.support_eq, he.deductions_eq,
    he.committed_eq, he.firing?_eq⟩

end Engine

/-! ## Properties of conclusions -/

namespace Work

open Engine

variable {γ α : Type}

theorem leaves_access {result : Except GraphError α} {e : Engine γ} {post : α → Engine γ → Prop}
    (h : ∀ a, result = .ok a → post a e) : (access result : Work γ α).Leaves e post := by
  cases result with
  | ok a => exact leaves_pure (h a rfl)
  | error cause => exact leaves_throw

/-- The property depends on the rules and on what is deduced, held up and committed.  It lasts
when a triple is taken out of the deductions, and out of the commitments with it, when a
conclusion loses a supporter, and when one is drawn by a rule of the given kind, which all
rules are. -/
structure Enduring [Graph γ] (kind : CompiledRule → Prop) (P : Engine γ → Prop) : Prop where
  kinds : ∀ {e : Engine γ}, P e → ∀ c ∈ e.network.rules, kind c
  ofConclusions : ∀ {e e' : Engine γ}, P e → e'.network = e.network →
    e'.deductions = e.deductions → e'.support = e.support → e'.committed = e.committed → P e'
  retracted : ∀ {e : Engine γ} (t : Triple), P e → (retractDeduction t).Leaves e fun _ e' =>
    P e' ∧ P { e' with committed := e'.committed.erase t }
  unsupport : ∀ a c matched t, Keeps P (unsupport a c matched t : Work γ Unit)
  draw : ∀ a c matched t, kind c → Keeps P (do credit a c matched t; assert t : Work γ Unit)

variable [Graph γ] {kind : CompiledRule → Prop} {P : Engine γ → Prop}

theorem Enduring.adjust (hP : Enduring kind P) {f : Engine γ → Engine γ}
    (hnetwork : ∀ e, (f e).network = e.network)
    (hdeductions : ∀ e, (f e).deductions = e.deductions)
    (hsupport : ∀ e, (f e).support = e.support)
    (hcommitted : ∀ e, (f e).committed = e.committed) :
    Keeps P (modify f : Work γ PUnit) :=
  keeps_modify fun e he => hP.ofConclusions he (hnetwork e) (hdeductions e) (hsupport e)
    (hcommitted e)

theorem Enduring.count (hP : Enduring kind P) (change : EngineStats → EngineStats) :
    Keeps P (count change : Work γ Unit) :=
  hP.adjust (fun _ => rfl) (fun _ => rfl) (fun _ => rfl) fun _ => rfl

theorem Enduring.queue (hP : Enduring kind P) (event : Event) :
    Keeps P (modify fun e => e.queue event : Work γ PUnit) :=
  hP.adjust (fun _ => rfl) (fun _ => rfl) (fun _ => rfl) fun _ => rfl

theorem Enduring.besideTokens (hP : Enduring kind P) : BesideTokens P :=
  fun _ _ _ _ he => hP.ofConclusions he rfl rfl rfl rfl

theorem Enduring.withdraw (hP : Enduring kind P) (t : Triple) :
    Keeps P (withdraw t : Work γ Unit) := by
  refine keeps_bind (keeps_of_leaves fun e he => (hP.retracted t he).mono fun _ _ h => h.1) ?_
  exact fun _ => keeps_ite (keeps_bind (keeps_inBase t) fun _ =>
    keeps_ite (keeps_pure _) (hP.queue _)) (keeps_pure _)

theorem Enduring.removeEverywhere (hP : Enduring kind P) (announced : Bool) (t : Triple) :
    Keeps P (removeEverywhere announced t : Work γ Unit) := by
  refine keeps_get_bind fun e he => keeps_bind (keeps_attempt _) fun _ => ?_
  refine keeps_bind (keeps_set (hP.ofConclusions he rfl rfl rfl rfl)) fun _ => ?_
  refine keeps_of_leaves fun e he => (hP.retracted t he).bind fun _ _ h => leaves_modify_bind ?_
  exact (keeps_ite (hP.queue _) (keeps_pure _)).leaves h.2

theorem Enduring.checkSupport (hP : Enduring kind P) (t : Triple) :
    Keeps P (checkSupport t : Work γ Unit) := by
  refine keeps_get_bind fun _ _ => keeps_ite (keeps_pure _) ?_
  refine keeps_bind (keeps_inBase t) fun _ => keeps_ite (keeps_pure _) ?_
  refine keeps_get_bind fun _ _ => keeps_ite (keeps_pure _) ?_
  refine keeps_bind (hP.count _) fun _ => keeps_get_bind fun _ _ => ?_
  refine keeps_bind (keeps_attempt _) fun _ => keeps_ite (keeps_pure _) ?_
  exact keeps_bind (hP.count _) fun _ => hP.withdraw t

theorem Enduring.retract (hP : Enduring kind P) (a : Activation) (triples : List Triple)
    (firing : Firing) : Keeps P (retract a triples firing : Work γ Unit) := by
  refine keeps_get_bind fun e _ => ?_
  split
  · exact keeps_bind (hP.count _) fun _ =>
      keeps_bind (hP.adjust (fun _ => rfl) (fun _ => rfl) (fun _ => rfl) fun _ => rfl) fun _ =>
        keeps_forM (hP.unsupport a _ _) _
  · exact keeps_pure _

theorem Enduring.propagate (hP : Enduring kind P) (event : Event) :
    Keeps P (propagate event : Work γ Unit) := by
  cases event with
  | added t =>
      refine keeps_bind (keeps_isVisible t) fun _ => keeps_ite ?_ (keeps_pure _)
      exact keeps_bind (hP.count _) fun _ => keeps_get_bind fun _ _ =>
        keeps_forM (hP.besideTokens.activate t) _
  | deleted t =>
      refine keeps_bind (keeps_isVisible t) fun _ => keeps_ite (keeps_pure _) ?_
      refine keeps_bind (hP.count _) fun _ => keeps_get_bind fun _ _ =>
        keeps_forM (fun rule => keeps_get_bind fun _ he => ?_) _
      exact keeps_bind (keeps_set (hP.ofConclusions he rfl rfl rfl rfl)) fun _ =>
        keeps_forM (fun _ => hP.retract _ _ _) _

theorem Enduring.settleFiring (hP : Enduring kind P) (a : Activation) (c : CompiledRule)
    (hc : kind c) (matched : List (Option Triple)) (conclusions : List Triple) (effects : Effects) :
    Keeps P (settleFiring a c matched conclusions effects : Work γ Unit) := by
  have hreport : Keeps P (report c conclusions : Work γ Unit) := by
    refine keeps_modify fun e he => ?_
    split
    · exact hP.ofConclusions he rfl rfl rfl rfl
    · exact he
  refine keeps_bind (hP.count _) fun _ => keeps_bind hreport fun _ => ?_
  refine keeps_bind (hP.adjust (fun _ => rfl) (fun _ => rfl) (fun _ => rfl) fun _ => rfl)
    fun _ => ?_
  refine keeps_bind (hP.adjust (fun _ => rfl) (fun _ => rfl) (fun _ => rfl) fun _ => rfl)
    fun _ => ?_
  refine keeps_bind (keeps_forM (fun t => hP.draw a c matched t hc) _) fun _ => ?_
  exact keeps_bind (keeps_forM (hP.removeEverywhere true) _) fun _ =>
    keeps_forM (hP.removeEverywhere false) _

theorem Enduring.fire (hP : Enduring kind P) (a : Activation) : Keeps P (fire a : Work γ Unit) := by
  refine keeps_get_bind fun e he => ?_
  split
  · rename_i c _ hc
    have hkind := hP.kinds he c (List.mem_of_getElem? hc)
    refine keeps_bind (keeps_attempt _) fun _ =>
      keeps_bind (keeps_set (hP.ofConclusions he rfl rfl rfl rfl)) fun _ => ?_
    split
    · exact keeps_bind (hP.count _) fun _ =>
        hP.adjust (fun _ => rfl) (fun _ => rfl) (fun _ => rfl) fun _ => rfl
    · exact hP.settleFiring a c hkind _ _ _
  · exact keeps_pure _

theorem Enduring.recheck (hP : Enduring kind P) : Keeps P (recheck : Work γ Bool) := by
  have hholds : ∀ (c : CompiledRule) triples, Keeps P (stillHolds c triples : Work γ Bool) :=
    fun c triples => keeps_get_bind fun _ he => keeps_bind (keeps_attempt _) fun _ =>
      keeps_bind (keeps_set (hP.ofConclusions he rfl rfl rfl rfl)) fun _ => keeps_pure _
  have hreconsider : ∀ c a fired, Keeps P (reconsider c a fired : Work γ Bool) :=
    fun c a fired => keeps_get_bind fun _ _ => keeps_bind (hholds c _) fun _ => keeps_ite
      (keeps_bind (hP.adjust (fun _ => rfl) (fun _ => rfl) (fun _ => rfl) fun _ => rfl) fun _ =>
        keeps_bind (hP.retract a _ _) fun _ => keeps_pure _)
      (keeps_ite (keeps_bind (hP.adjust (fun _ => rfl) (fun _ => rfl) (fun _ => rfl) fun _ => rfl)
        fun _ => keeps_pure _) (keeps_pure _))
  exact keeps_get_bind fun _ _ => keeps_bind (keeps_mapM (fun _ => keeps_get_bind fun _ _ =>
    keeps_bind (keeps_mapM (fun _ => hreconsider _ _ _) _) fun _ => keeps_pure _) _)
      fun _ => keeps_pure _

/-- A piece of work keeps what lasts. -/
theorem Enduring.step (hP : Enduring kind P) (rechecks : Nat) :
    Keeps P (step rechecks : Work γ (Option Nat)) := by
  refine keeps_get_bind fun e he => ?_
  split
  · exact keeps_bind (keeps_set (hP.ofConclusions he rfl rfl rfl rfl)) fun _ =>
      keeps_bind (hP.propagate _) fun _ => keeps_pure _
  · exact keeps_bind (keeps_set (hP.ofConclusions he rfl rfl rfl rfl)) fun _ =>
      keeps_bind (hP.fire _) fun _ => keeps_pure _
  · exact keeps_bind (keeps_set (hP.ofConclusions he rfl rfl rfl rfl)) fun _ =>
      keeps_bind (hP.checkSupport _) fun _ => keeps_pure _
  · exact keeps_ite (keeps_pure _) (keeps_bind (hP.count _) fun _ =>
      keeps_bind hP.recheck fun _ => keeps_ite (keeps_pure _) (keeps_pure _))

/-- A request keeps what lasts, if nothing need be concluded for it. -/
theorem Enduring.request (hP : Enduring kind P) (hreset : ∀ e, P e → P e.reset) (o : Operation) :
    Keeps P (o.request : Work γ Unit) := by
  cases o with
  | recompute =>
      refine keeps_bind (keeps_modify hreset) fun _ => keeps_get_bind fun _ he =>
        keeps_bind (keeps_attempt _) fun _ =>
          keeps_bind (keeps_set (hP.ofConclusions he rfl rfl rfl rfl)) fun _ => ?_
      have honce : ∀ rule, Keeps P (scheduleOnce rule : Work γ Unit) :=
        fun _ => hP.adjust (fun _ => rfl) (fun _ => rfl) (fun _ => rfl) fun _ => rfl
      exact keeps_forM (fun _ => honce _) _
  | add t =>
      refine keeps_bind (keeps_get_bind fun _ he => keeps_bind (keeps_attempt _) fun _ =>
        keeps_bind (keeps_set (hP.ofConclusions he rfl rfl rfl rfl)) fun _ => ?_)
        fun _ => keeps_pure _
      exact keeps_ite (keeps_bind (hP.queue _) fun _ => keeps_pure _) (keeps_pure _)
  | delete t =>
      refine keeps_bind (keeps_get_bind fun _ he => keeps_bind (keeps_attempt _) fun _ =>
        keeps_bind (keeps_set (hP.ofConclusions he rfl rfl rfl rfl)) fun _ => keeps_ite ?_ ?_)
          fun _ => keeps_pure _
      · have hsuspect : Keeps P (suspect t : Work γ Unit) :=
          hP.adjust (fun _ => rfl) (fun _ => rfl) (fun _ => rfl) fun _ => rfl
        exact keeps_ite (keeps_bind hsuspect fun _ => keeps_pure _)
          (keeps_bind (hP.queue _) fun _ => keeps_pure _)
      · refine keeps_of_leaves fun e he => (hP.retracted t he).bind fun removed _ h => ?_
        split
        · exact leaves_modify_bind (leaves_pure (hP.ofConclusions h.2 rfl rfl rfl rfl))
        · exact leaves_pure h.1
  | announce event => exact hP.queue event
  | close => exact keeps_modify fun e he => hP.ofConclusions (hreset e he) rfl rfl rfl rfl

end Work

/-! ## Histories -/

namespace Engine

variable {γ : Type} [Graph γ] {n : Network} {sane : γ → Prop} {allowed : Operation → Prop}
  {e : Engine γ}

/-- What requests and pieces of work keep holds whatever has been done, unless the engine
has closed. -/
theorem Operated.keeps {P : Engine γ → Prop} (he : Operated n sane allowed e)
    (hstart : ∀ base, P (Engine.start n base)) (hreset : ∀ e, P e → P e.reset)
    (hbeside : ∀ (e : Engine γ) (base : γ) derivations logging traceFirings maxRechecks state world,
      P e → P { e with base, derivations, logging, traceFirings, maxRechecks, state, world })
    (hrequest : ∀ o : Operation, Work.Keeps P (o.request : Work γ Unit))
    (hstep : ∀ rechecks, Work.Keeps P (Work.step rechecks : Work γ (Option Nat))) :
    P e ∨ e.Silent := by
  induction he with
  | start _ => exact Or.inl (hstart _)
  | @performed e e' o budget _ _ hperform ih =>
      rcases Operation.leaves_cases hperform with ⟨_, rfl⟩ | ⟨e₁, rfl⟩ | ⟨hopen, cause, hrefused⟩ |
        ⟨hopen, e₁, hrequested, hrun⟩
      · exact ih
      · exact Or.inr e₁.silent_close
      · have he := ih.resolve_right fun h => Bool.eq_false_iff.1 hopen h.isClosed
        obtain rfl | ⟨_, rfl, _⟩ | ⟨_, base, _, _, _, rfl⟩ := (Operation.refusal hrefused).2
        · exact Or.inl he
        · exact Or.inl (hreset e he)
        · exact Or.inl (hbeside e base _ _ _ _ _ _ he)
      · have he := ih.resolve_right fun h => Bool.eq_false_iff.1 hopen h.isClosed
        rcases run_leaves hstep (fun e he => hbeside e _ _ _ _ _ _ _ he)
          (hrequest o e _ e₁ he hrequested) hrun with he' | ⟨e₂, rfl⟩
        · exact Or.inl he'
        · exact Or.inr e₂.silent_close
  | rebased _ _ ih => exact ih.imp (hbeside _ _ _ _ _ _ _ _) fun he => he.beside _ _ _ _ _ _
  | logging _ ih => exact ih.imp (hbeside _ _ _ _ _ _ _ _) fun he => he.beside _ _ _ _ _ _
  | settings _ ih => exact ih.imp (hbeside _ _ _ _ _ _ _ _) fun he => he.beside _ _ _ _ _ _

/-- What lasts and holds of nothing concluded holds whatever has been done, unless the engine
has closed. -/
theorem Operated.endures {kind : CompiledRule → Prop} {P : Engine γ → Prop}
    (he : Operated n sane allowed e) (hP : Work.Enduring kind P)
    (hstart : ∀ base, P (Engine.start n base)) (hreset : ∀ e, P e → P e.reset) :
    P e ∨ e.Silent :=
  he.keeps hstart hreset (fun _ _ _ _ _ _ _ _ he => hP.ofConclusions he rfl rfl rfl rfl)
    (hP.request hreset) hP.step

end Engine

end Entailment
