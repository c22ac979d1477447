import Entailment.Proofs.Forward.Books

/-!
# Rules that hide nothing

Only a firing hides predicates, and it hides those that the calls of its rule ask to be
hidden.  So an engine whose rules never ask for that leaves every visible triple in the
answers, whatever it has done.
-/

namespace Entailment

/-- Evaluating a rule of the network asks for nothing to be hidden. -/
def Network.HidesNothing (n : Network) : Prop :=
  ∀ c ∈ n.rules, ∀ ctx st, (c.evaluate n.registry ctx st).2.effects.hidden = st.effects.hidden

namespace Work

variable {γ : Type} {n : Network}

/-- An engine over the network that hides nothing. -/
structure Open (n : Network) (e : Engine γ) : Prop where
  network_eq : e.network = n
  hidden_eq : e.hidden = .empty

theorem Open.of_eq {e e' : Engine γ} (h : Open n e) (hnetwork : e'.network = e.network)
    (hhidden : e'.hidden = e.hidden) : Open n e' :=
  ⟨hnetwork.trans h.network_eq, hhidden.trans h.hidden_eq⟩

theorem ofTokens_open : OfTokens (Open n : Engine γ → Prop) :=
  fun _ _ hnetwork _ _ hhidden he => he.of_eq hnetwork hhidden

theorem ofBooks_open : OfBooks (Open n : Engine γ → Prop) := ofTokens_open.ofBooks

theorem besideTokens_open : BesideTokens (Open n : Engine γ → Prop) :=
  fun _ _ _ _ he => he.of_eq rfl rfl

theorem foldl_unhide_empty (ps : List Node) :
    ps.foldl unhide (.empty : OrderedMap Node Nat) = .empty := by
  induction ps with
  | nil => rfl
  | cons p ps ih => exact ih

variable [Graph γ]

theorem keeps_retract (a : Activation) (triples : List Triple) (firing : Firing) :
    Keeps (Open n) (retract a triples firing : Work γ Unit) := by
  refine keeps_get_bind fun e he => ?_
  split
  · refine keeps_bind (ofBooks_open.count _) fun _ => keeps_bind (keeps_modify fun e he => ?_)
      fun _ => keeps_forM (ofTokens_open.ofTallies.unsupport a _ _) _
    refine he.of_eq rfl ?_
    change List.foldl unhide e.hidden _ = _
    rw [he.hidden_eq, foldl_unhide_empty]
  · exact keeps_pure _

theorem keeps_retractTokens (t : Triple) (rule : Nat) :
    Keeps (Open n) (retractTokens t rule : Work γ Unit) :=
  keeps_get_bind fun _ he => keeps_bind (keeps_set (he.of_eq rfl rfl)) fun _ =>
    keeps_forM (fun _ => keeps_retract _ _ _) _

/-! ## Events -/

theorem keeps_propagate (event : Event) : Keeps (Open n) (propagate event : Work γ Unit) := by
  cases event with
  | added t =>
      refine keeps_bind (keeps_isVisible t) fun _ => keeps_ite ?_ (keeps_pure _)
      exact keeps_bind (ofBooks_open.count _) fun _ => keeps_get_bind fun _ _ =>
        keeps_forM (besideTokens_open.activate t) _
  | deleted t =>
      refine keeps_bind (keeps_isVisible t) fun _ => keeps_ite (keeps_pure _) ?_
      exact keeps_bind (ofBooks_open.count _) fun _ => keeps_get_bind fun _ _ =>
        keeps_forM (keeps_retractTokens t) _

/-! ## Firing -/

theorem keeps_settleFiring (a : Activation) (c : CompiledRule) (matched : List (Option Triple))
    (conclusions : List Triple) {effects : Effects} (heffects : effects.hidden = []) :
    Keeps (Open n) (settleFiring a c matched conclusions effects : Work γ Unit) := by
  refine keeps_bind (ofBooks_open.count _) fun _ =>
    keeps_bind (ofBooks_open.ofCounts.report c _) fun _ => ?_
  refine keeps_bind (keeps_modify fun e he => ?_) fun _ => ?_
  · rw [heffects]
    exact he
  refine keeps_bind (keeps_modify fun _ he => he.of_eq rfl rfl) fun _ => ?_
  refine keeps_bind (keeps_forM (fun t =>
    keeps_bind (ofTokens_open.ofTallies.credit a c matched t) fun _ =>
      ofBooks_open.ofCounts.assert t) _) fun _ => ?_
  exact keeps_bind (keeps_forM (ofTokens_open.ofTallies.removeEverywhere true) _) fun _ =>
    keeps_forM (ofTokens_open.ofTallies.removeEverywhere false) _

theorem keeps_fire (hn : n.HidesNothing) (a : Activation) :
    Keeps (Open n) (fire a : Work γ Unit) := by
  refine keeps_get_bind fun e he => ?_
  split
  · rename_i c hfiring hc
    refine keeps_bind (keeps_attempt _) fun bindings => ?_
    have hmem : c ∈ n.rules := List.mem_of_getElem? (he.network_eq ▸ hc)
    have hhidden := hn c hmem (.ofView e.view c.label (c.matched (e.matchedBy a)) false)
      { bindings, world := e.world }
    rw [← he.network_eq] at hhidden
    refine keeps_bind (keeps_set (he.of_eq rfl rfl)) fun _ => ?_
    split
    · exact keeps_bind (ofBooks_open.count _) fun _ => keeps_modify fun _ he => he.of_eq rfl rfl
    · exact keeps_settleFiring a c _ _ hhidden
  · exact keeps_pure _

theorem keeps_reconsider (c : CompiledRule) (a : Activation) (fired : Bool) :
    Keeps (Open n) (reconsider c a fired : Work γ Bool) := by
  refine keeps_get_bind fun e he => keeps_bind (ofBooks_open.ofCounts.stillHolds c _) fun held =>
    keeps_ite ?_ ?_
  · exact keeps_bind (keeps_modify fun _ he => he.of_eq rfl rfl) fun _ =>
      keeps_bind (keeps_retract a _ _) fun _ => keeps_pure _
  · exact keeps_ite (keeps_bind (keeps_modify fun _ he => he.of_eq rfl rfl) fun _ => keeps_pure _)
      (keeps_pure _)

theorem keeps_recheck : Keeps (Open n) (recheck : Work γ Bool) :=
  keeps_get_bind fun _ _ => keeps_bind (keeps_mapM (fun _ =>
    keeps_get_bind fun _ _ => keeps_bind (keeps_mapM (fun _ => keeps_reconsider _ _ _) _)
      fun _ => keeps_pure _) _) fun _ => keeps_pure _

/-! ## Runs -/

theorem keeps_step (hn : n.HidesNothing) (rechecks : Nat) :
    Keeps (Open n) (step rechecks : Work γ (Option Nat)) := by
  refine keeps_get_bind fun e he => ?_
  split
  · exact keeps_bind (keeps_set (he.of_eq rfl rfl)) fun _ =>
      keeps_bind (keeps_propagate _) fun _ => keeps_pure _
  · exact keeps_bind (keeps_set (he.of_eq rfl rfl)) fun _ =>
      keeps_bind (keeps_fire hn _) fun _ => keeps_pure _
  · exact keeps_bind (keeps_set (he.of_eq rfl rfl)) fun _ =>
      keeps_bind (ofBooks_open.ofCounts.checkSupport _) fun _ => keeps_pure _
  · exact keeps_ite (keeps_pure _) (keeps_bind (ofBooks_open.count _) fun _ =>
      keeps_bind keeps_recheck fun _ => keeps_ite (keeps_pure _) (keeps_pure _))

omit [Graph γ] in
theorem keeps_scheduleOnce (rule : Nat) :
    Keeps (Open n) (scheduleOnce rule : Work γ Unit) :=
  keeps_modify fun _ he => he.of_eq rfl rfl

/-- Starting over forgets what was hidden. -/
theorem open_of_restart {e e' : Engine γ} (h : restart e = .ok () e') : Open e.network e' := by
  have hkeeps : Keeps (Open e.network) (do
      let e ← get
      let facts ← access (Graph.find e.base .any)
      set { e with events := facts.map .added }
      let unconditional := e.network.rules.zipIdx.filter fun x => x.1.patterns.isEmpty
      unconditional.forM fun x => scheduleOnce x.2 : Work γ Unit) :=
    keeps_get_bind fun _ he => keeps_bind (keeps_attempt _) fun _ =>
      keeps_bind (keeps_set (he.of_eq rfl rfl)) fun _ =>
        keeps_forM (fun _ => keeps_scheduleOnce _) _
  exact hkeeps e.reset () e' ⟨rfl, rfl⟩ h

end Work

namespace Engine

variable {γ : Type} [Graph γ] {n : Network} {e e' : Engine γ}

theorem open_of_run (hn : n.HidesNothing) {budget rechecks : Nat} (he : Work.Open n e)
    (h : e.run budget rechecks = .done () e') : Work.Open n e' := by
  induction budget generalizing rechecks e with
  | zero => cases h
  | succ budget ih =>
      rw [run] at h
      cases hstep : Work.step rechecks e with
      | error cause e₁ =>
          rw [hstep] at h
          cases h
      | ok answer e₁ =>
          have he₁ := Work.keeps_step hn rechecks e answer e₁ he hstep
          rw [hstep] at h
          cases answer with
          | some rechecks => exact ih he₁ h
          | none =>
              cases h
              exact he₁.of_eq rfl rfl

/-- Nothing is hidden by an engine that has computed its conclusions. -/
theorem open_of_recompute (hn : e.network.HidesNothing) {budget : Nat}
    (h : e.recompute budget = .done () e') : Work.Open e.network e' := by
  unfold recompute operate at h
  split at h
  · cases h
  · cases hrestart : Work.restart e with
    | error cause e₁ =>
        rw [hrestart] at h
        cases h
    | ok answer e₁ =>
        rw [hrestart] at h
        have he₁ := Work.open_of_restart hrestart
        cases hrun : run budget 0 e₁ with
        | done value e₂ =>
            simp only [hrun, Outcome.map] at h
            cases h
            exact open_of_run hn he₁ hrun
        | failed cause e₂ =>
            simp only [hrun, Outcome.map] at h
            cases h
        | unfinished =>
            simp only [hrun, Outcome.map] at h
            cases h

end Engine

end Entailment
