import Entailment.Proofs.Builtin.Reliance
import Entailment.Proofs.Forward.Books
import Entailment.Proofs.Forward.Modesty
import Entailment.Proofs.Forward.Operation

/-!
# Runs that nothing stops

Only a call can stop a run, and of the standard builtins only the division of integers does.
Calls are made when an activation fires and when it is asked again.  So an operation whose
rules call nothing that stops leaves the run going on.
-/

namespace Entailment

theorem isStopped_allHold {ask : Call → CallState → Bool × CallState} {calls : List Call}
    (hask : ∀ c ∈ calls, ∀ st, (ask c st).2.world.isStopped = st.world.isStopped)
    (st : CallState) : (allHold ask calls st).2.world.isStopped = st.world.isStopped := by
  induction calls generalizing st with
  | nil => rfl
  | cons c calls ih =>
      have hfirst := hask c List.mem_cons_self st
      unfold allHold
      cases hanswer : ask c st with
      | mk answer st' =>
          rw [hanswer] at hfirst
          cases answer with
          | true => exact (ih (fun d hd => hask d (List.mem_cons_of_mem _ hd)) st').trans hfirst
          | false => exact hfirst

/-! ## Rules that call nothing that stops -/

/-- No call of the body stops the run. -/
def Rule.Calm (r : Rule) (registry : Registry) : Prop :=
  ∀ call, Clause.call call ∈ r.body → ∀ b, registry.get? call.name = some b →
    Procedure.Calm b.body

/-- A rule of standard builtins is calm if it does not divide. -/
theorem Rule.calm_of_standard {r : Rule} (h : ∀ call ∈ r.calls.map Prod.snd,
      (Registry.standard.get? call.name).all (fun b => b.name != "quotient") = true) :
    r.Calm Registry.standard := by
  intro call hcall b hb
  have hname := h call (mem_calls_iff.2 hcall)
  rw [hb] at hname
  exact Builtin.calm_of_mem_standard (Registry.mem_standard hb) (bne_iff_ne.1 hname)

/-- A head that calls nothing draws blank nodes at most. -/
theorem Rule.Contained.isStopped_conclude {r : Rule} (hr : r.Contained) (registry : Registry)
    (ctx : CallContext) (st : CallState) :
    (r.conclude registry ctx st).2.world.isStopped = st.world.isStopped := by
  suffices hclauses : ∀ (clauses : List Clause) (drawn : OrderedSet Triple × CallState),
      (∀ c ∈ clauses, c ∈ r.head) →
      (clauses.foldl (Clause.carryOut registry ctx) drawn).2.world.isStopped =
        drawn.2.world.isStopped from
    hclauses r.head (.empty, st) fun _ hc => hc
  intro clauses
  induction clauses with
  | nil => exact fun _ _ => rfl
  | cons clause clauses ih =>
      intro drawn hhead
      obtain ⟨h, rfl, _⟩ := hr clause (hhead clause List.mem_cons_self)
      rw [List.foldl_cons, ih _ fun c hc => hhead c (List.mem_cons_of_mem _ hc)]
      rfl

namespace Network

/-- Neither to evaluate a rule of the network nor to ask its calls again stops the run. -/
structure Calm (n : Network) : Prop where
  evaluated : ∀ c ∈ n.rules, ∀ ctx st,
    (c.evaluate n.registry ctx st).2.world.isStopped = st.world.isStopped
  asked : ∀ c ∈ n.rules, ∀ ctx st,
    (allHold (fun call st => call.holdsSpeculatively n.registry ctx st) c.calls
      st).2.world.isStopped = st.world.isStopped

theorem calm_of_compile {rules : List Rule} {registry : Registry} {n : Network}
    (hn : compile rules registry = .ok n) (hhead : ∀ rule ∈ rules, rule.Contained)
    (hcalm : ∀ rule ∈ rules, rule.Calm registry) : n.Calm := by
  obtain ⟨_, hregistry, hrules⟩ := compile_eq_ok hn
  have hrule : ∀ c ∈ n.rules, c.rule.Contained ∧ ∀ call ∈ c.calls, ∀ ctx st,
      (call.holds n.registry ctx st).2.world.isStopped = st.world.isStopped := by
    intro c hc
    rw [hrules] at hc
    obtain ⟨rule, hmem, rfl⟩ := List.mem_map.1 hc
    refine ⟨hhead rule hmem, fun call hcall ctx st => ?_⟩
    unfold Call.holds
    rw [hregistry]
    cases hb : registry.get? call.name with
    | none => rfl
    | some b => exact hcalm rule hmem call (Rule.mem_calls_iff.1 hcall) b hb ctx _ st
  constructor
  · intro c hc ctx st
    obtain ⟨hcontained, hcalls⟩ := hrule c hc
    have hheld := isStopped_allHold (fun call hcall st => hcalls call hcall ctx st) st
    unfold CompiledRule.evaluate
    generalize allHold (fun call st => call.holds n.registry ctx st) c.calls st = result at hheld
    obtain ⟨held, st₁⟩ := result
    cases held with
    | false => exact hheld
    | true => exact (hcontained.isStopped_conclude n.registry ctx st₁).trans hheld
  · intro c hc ctx st
    refine isStopped_allHold (fun call hcall st => ?_) st
    unfold Call.holdsSpeculatively
    cases n.registry.get? call.name with
    | none => rfl
    | some b =>
        simp only
        split
        · exact (hrule c hc).2 call hcall ctx st
        · rfl

end Network

/-! ## Work -/

namespace Work

variable {γ : Type} {n : Network} {stopped : Bool}

/-- An engine over the network whose run has been stopped, or has not. -/
structure GoesOn (n : Network) (stopped : Bool) (e : Engine γ) : Prop where
  network_eq : e.network = n
  stopped_eq : e.world.isStopped = stopped

theorem GoesOn.of_eq {e e' : Engine γ} (h : GoesOn n stopped e) (hnetwork : e'.network = e.network)
    (hworld : e'.world.isStopped = e.world.isStopped) : GoesOn n stopped e' :=
  ⟨hnetwork.trans h.network_eq, hworld.trans h.stopped_eq⟩

/-- A change that leaves the rules and the world as they are. -/
theorem adjust_goesOn {f : Engine γ → Engine γ} (hnetwork : ∀ e, (f e).network = e.network)
    (hworld : ∀ e, (f e).world.isStopped = e.world.isStopped) :
    Keeps (GoesOn n stopped) (modify f : Work γ PUnit) :=
  keeps_modify fun e he => he.of_eq (hnetwork e) (hworld e)

theorem keeps_count_goesOn (change : EngineStats → EngineStats) :
    Keeps (GoesOn n stopped) (count change : Work γ Unit) :=
  adjust_goesOn (fun _ => rfl) fun _ => rfl

theorem keeps_queue_goesOn (event : Event) :
    Keeps (GoesOn n stopped) (modify fun e => e.queue event : Work γ PUnit) :=
  adjust_goesOn (fun _ => rfl) fun _ => rfl

theorem keeps_retractDeduction_goesOn (t : Triple) :
    Keeps (GoesOn n stopped) (retractDeduction t : Work γ Bool) :=
  keeps_get_bind fun _ he => keeps_bind (keeps_attempt _) fun _ =>
    keeps_bind (keeps_set (he.of_eq rfl rfl)) fun _ => keeps_pure _

theorem besideTokens_goesOn : BesideTokens (GoesOn n stopped : Engine γ → Prop) :=
  fun _ _ _ _ he => he.of_eq rfl rfl

theorem besideSupport_goesOn : BesideSupport (GoesOn n stopped : Engine γ → Prop) :=
  fun _ _ _ _ he => he.of_eq rfl rfl

variable [Graph γ]

/-! ## Events and support -/

theorem keeps_withdraw_goesOn (t : Triple) :
    Keeps (GoesOn n stopped) (withdraw t : Work γ Unit) :=
  keeps_bind (keeps_retractDeduction_goesOn t) fun _ => keeps_ite
    (keeps_bind (keeps_inBase t) fun _ => keeps_ite (keeps_pure _) (keeps_queue_goesOn _))
    (keeps_pure _)

theorem keeps_retract_goesOn (a : Activation) (triples : List Triple) (firing : Firing) :
    Keeps (GoesOn n stopped) (retract a triples firing : Work γ Unit) := by
  refine keeps_get_bind fun e he => ?_
  split
  · refine keeps_bind (keeps_count_goesOn _) fun _ =>
      keeps_bind (adjust_goesOn (fun _ => rfl) fun _ => rfl) fun _ => keeps_forM (fun t => ?_) _
    exact besideSupport_goesOn.unsupport (keeps_withdraw_goesOn t) a _ _
  · exact keeps_pure _

theorem keeps_propagate_goesOn (event : Event) :
    Keeps (GoesOn n stopped) (propagate event : Work γ Unit) := by
  cases event with
  | added t =>
      refine keeps_bind (keeps_isVisible t) fun _ => keeps_ite ?_ (keeps_pure _)
      exact keeps_bind (keeps_count_goesOn _) fun _ => keeps_get_bind fun _ _ =>
        keeps_forM (besideTokens_goesOn.activate t) _
  | deleted t =>
      refine keeps_bind (keeps_isVisible t) fun _ => keeps_ite (keeps_pure _) ?_
      refine keeps_bind (keeps_count_goesOn _) fun _ => keeps_get_bind fun _ _ =>
        keeps_forM (fun _ => keeps_get_bind fun _ he => ?_) _
      exact keeps_bind (keeps_set (he.of_eq rfl rfl)) fun _ =>
        keeps_forM (fun _ => keeps_retract_goesOn _ _ _) _

theorem keeps_checkSupport_goesOn (t : Triple) :
    Keeps (GoesOn n stopped) (checkSupport t : Work γ Unit) := by
  refine keeps_get_bind fun _ _ => keeps_ite (keeps_pure _) ?_
  refine keeps_bind (keeps_inBase t) fun _ => keeps_ite (keeps_pure _) ?_
  refine keeps_get_bind fun _ _ => keeps_ite (keeps_pure _) ?_
  refine keeps_bind (keeps_count_goesOn _) fun _ => keeps_get_bind fun _ _ => ?_
  refine keeps_bind (keeps_attempt _) fun _ => keeps_ite (keeps_pure _) ?_
  exact keeps_bind (keeps_count_goesOn _) fun _ => keeps_withdraw_goesOn t

/-! ## Firing -/

theorem keeps_assert_goesOn (t : Triple) : Keeps (GoesOn n stopped) (assert t : Work γ Unit) :=
  keeps_get_bind fun _ he => keeps_bind (keeps_attempt _) fun _ =>
    keeps_bind (keeps_set (he.of_eq rfl rfl)) fun _ => keeps_ite
      (keeps_bind (keeps_inBase t) fun _ => keeps_ite (keeps_pure _) (keeps_queue_goesOn _))
      (keeps_pure _)

theorem keeps_removeEverywhere_goesOn (announced : Bool) (t : Triple) :
    Keeps (GoesOn n stopped) (removeEverywhere announced t : Work γ Unit) :=
  keeps_get_bind fun _ he => keeps_bind (keeps_attempt _) fun _ =>
    keeps_bind (keeps_set (he.of_eq rfl rfl)) fun _ =>
      keeps_bind (keeps_retractDeduction_goesOn t) fun _ =>
        keeps_bind (adjust_goesOn (fun _ => rfl) fun _ => rfl) fun _ =>
          keeps_ite (keeps_queue_goesOn _) (keeps_pure _)

/-- To print a line and to take over what was concluded stops nothing. -/
theorem keeps_settleFiring_goesOn (a : Activation) (c : CompiledRule)
    (matched : List (Option Triple)) (conclusions : List Triple) (effects : Effects) :
    Keeps (GoesOn n stopped) (settleFiring a c matched conclusions effects : Work γ Unit) := by
  have hreport : Keeps (GoesOn n stopped) (report c conclusions : Work γ Unit) := by
    refine adjust_goesOn (fun e => ?_) fun e => ?_ <;> simp only <;> split <;> rfl
  have hcredit : ∀ t, Keeps (GoesOn n stopped) (credit a c matched t : Work γ Unit) := by
    intro t
    refine adjust_goesOn (fun e => ?_) fun e => ?_ <;> simp only <;> split <;> split <;> rfl
  refine keeps_bind (keeps_count_goesOn _) fun _ => keeps_bind hreport fun _ => ?_
  refine keeps_bind (adjust_goesOn (fun _ => rfl) fun _ => rfl) fun _ => ?_
  refine keeps_bind (adjust_goesOn (fun _ => rfl) fun _ => rfl) fun _ => ?_
  refine keeps_bind (keeps_forM (fun t => keeps_bind (hcredit t) fun _ =>
    keeps_assert_goesOn t) _) fun _ => ?_
  exact keeps_bind (keeps_forM (keeps_removeEverywhere_goesOn true) _) fun _ =>
    keeps_forM (keeps_removeEverywhere_goesOn false) _

theorem keeps_fire_goesOn (hn : n.Calm) (a : Activation) :
    Keeps (GoesOn n stopped) (fire a : Work γ Unit) := by
  refine keeps_get_bind fun e he => ?_
  split
  · rename_i c _ hc
    have hmem : c ∈ e.network.rules := List.mem_of_getElem? hc
    refine keeps_bind (keeps_attempt _) fun bindings => ?_
    have hevaluated := (he.network_eq ▸ hn.evaluated) c hmem
      (.ofView e.view c.label (c.matched (e.matchedBy a)) false) { bindings, world := e.world }
    refine keeps_bind (keeps_set (he.of_eq rfl hevaluated)) fun _ => ?_
    split
    · exact keeps_bind (keeps_count_goesOn _) fun _ => adjust_goesOn (fun _ => rfl) fun _ => rfl
    · exact keeps_settleFiring_goesOn a c _ _ _
  · exact keeps_pure _

/-! ## Asking again -/

theorem keeps_reconsider_goesOn (hn : n.Calm) {c : CompiledRule} (hc : c ∈ n.rules)
    (a : Activation) (fired : Bool) :
    Keeps (GoesOn n stopped) (reconsider c a fired : Work γ Bool) := by
  have hholds : ∀ triples, Keeps (GoesOn n stopped) (stillHolds c triples : Work γ Bool) := by
    refine fun triples => keeps_get_bind fun e he => keeps_bind (keeps_attempt _) fun bindings => ?_
    have hasked := hn.asked c hc (.ofView e.view c.label (c.matched triples) true)
      { bindings, world := e.world }
    rw [← he.network_eq] at hasked
    exact keeps_bind (keeps_set (he.of_eq rfl hasked)) fun _ => keeps_pure _
  refine keeps_get_bind fun e _ => keeps_bind (hholds _) fun held => keeps_ite ?_ ?_
  · exact keeps_bind (adjust_goesOn (fun _ => rfl) fun _ => rfl) fun _ =>
      keeps_bind (keeps_retract_goesOn a _ _) fun _ => keeps_pure _
  · exact keeps_ite (keeps_bind (adjust_goesOn (fun _ => rfl) fun _ => rfl) fun _ => keeps_pure _)
      (keeps_pure _)

theorem keeps_recheck_goesOn (hn : n.Calm) : Keeps (GoesOn n stopped) (recheck : Work γ Bool) := by
  refine keeps_get_bind fun e he =>
    keeps_bind (keeps_mapM_each fun x hx => ?_) fun _ => keeps_pure _
  have hmem : x.1 ∈ n.rules :=
    he.network_eq ▸ List.fst_mem_of_mem_zipIdx (List.mem_of_mem_filter hx)
  exact keeps_get_bind fun _ _ => keeps_bind (keeps_mapM (fun _ =>
    keeps_reconsider_goesOn hn hmem _ _) _) fun _ => keeps_pure _

/-! ## Runs and operations -/

theorem keeps_step_goesOn (hn : n.Calm) (rechecks : Nat) :
    Keeps (GoesOn n stopped) (step rechecks : Work γ (Option Nat)) := by
  refine keeps_get_bind fun e he => ?_
  split
  · exact keeps_bind (keeps_set (he.of_eq rfl rfl)) fun _ =>
      keeps_bind (keeps_propagate_goesOn _) fun _ => keeps_pure _
  · exact keeps_bind (keeps_set (he.of_eq rfl rfl)) fun _ =>
      keeps_bind (keeps_fire_goesOn hn _) fun _ => keeps_pure _
  · exact keeps_bind (keeps_set (he.of_eq rfl rfl)) fun _ =>
      keeps_bind (keeps_checkSupport_goesOn _) fun _ => keeps_pure _
  · exact keeps_ite (keeps_pure _) (keeps_bind (keeps_count_goesOn _) fun _ =>
      keeps_bind (keeps_recheck_goesOn hn) fun _ => keeps_ite (keeps_pure _) (keeps_pure _))

theorem keeps_request_goesOn (o : Operation) :
    Keeps (GoesOn n stopped) (o.request : Work γ Unit) := by
  cases o with
  | recompute =>
      refine keeps_bind (adjust_goesOn (fun _ => rfl) fun _ => rfl) fun _ =>
        keeps_get_bind fun _ he => keeps_bind (keeps_attempt _) fun _ =>
          keeps_bind (keeps_set (he.of_eq rfl rfl)) fun _ => ?_
      have honce : ∀ rule, Keeps (GoesOn n stopped) (scheduleOnce rule : Work γ Unit) :=
        fun _ => adjust_goesOn (fun _ => rfl) fun _ => rfl
      exact keeps_forM (fun _ => honce _) _
  | add t =>
      refine keeps_bind (keeps_get_bind fun _ he => keeps_bind (keeps_attempt _) fun _ =>
        keeps_bind (keeps_set (he.of_eq rfl rfl)) fun _ => ?_) fun _ => keeps_pure _
      exact keeps_ite (keeps_bind (keeps_queue_goesOn _) fun _ => keeps_pure _) (keeps_pure _)
  | delete t =>
      refine keeps_bind (keeps_get_bind fun _ he => keeps_bind (keeps_attempt _) fun _ =>
        keeps_bind (keeps_set (he.of_eq rfl rfl)) fun _ => keeps_ite ?_ ?_) fun _ => keeps_pure _
      · exact keeps_ite
          (keeps_bind (adjust_goesOn (fun _ => rfl) fun _ => rfl) fun _ => keeps_pure _)
          (keeps_bind (keeps_queue_goesOn _) fun _ => keeps_pure _)
      · exact keeps_bind (keeps_retractDeduction_goesOn t) fun _ => keeps_ite
          (keeps_bind (adjust_goesOn (fun _ => rfl) fun _ => rfl) fun _ => keeps_pure _)
          (keeps_pure _)
  | announce event => exact keeps_queue_goesOn event
  | close => exact adjust_goesOn (fun _ => rfl) fun _ => rfl

end Work

namespace Engine

variable {γ : Type} [Graph γ] {n : Network} {e e' : Engine γ} {o : Operation}

/-- An operation that leaves the engine open stops the run only if a call does. -/
theorem isStopped_of_perform (hn : e.network.Calm) {budget : Nat}
    (h : (o.perform budget e).state? = some e') (hopen : e'.isClosed = false) :
    e'.world.isStopped = e.world.isStopped := by
  rcases Operation.leaves_cases h with
    ⟨_, rfl⟩ | ⟨_, rfl⟩ | ⟨_, _, hrefused⟩ | ⟨_, e₁, hgranted, hrun⟩
  · rfl
  · cases hopen
  · obtain ⟨_, rfl | ⟨_, rfl, _⟩ | ⟨_, _, _, _, _, rfl⟩⟩ := Operation.refusal hrefused <;> rfl
  have hrequested := Work.keeps_request_goesOn o e () e₁ ⟨rfl, rfl⟩ hgranted
  rcases run_leaves (Work.keeps_step_goesOn hn) (fun _ he => he.of_eq rfl rfl) hrequested hrun with
    hkept | ⟨_, rfl⟩
  · exact hkept.stopped_eq
  · cases hopen

end Engine

end Entailment
