import Entailment.Proofs.Backward.Exactness
import Entailment.Proofs.Forward.Hiding
import Entailment.Proofs.Forward.Maintenance
import Entailment.Proofs.Rule.Alteration
import Entailment.Reasoner

/-!
# Both modes agree

Asked forward or backward, rules without functors give a graph the same triples to find,
when the head of each is one triple that the patterns of its body determine and its
calls are tests that stand behind the patterns that their variables occur in.  Running
forward, the engine stores the consequences of the base, and asked backward, the solver
finds them in the base.
-/

namespace Entailment

/-! ## Rules for both modes -/

/-- A forward rule without functors whose head is one triple that the body's patterns
determine, and whose calls are tests that can be asked from left to right. -/
structure Rule.Reversible (r : Rule) : Prop where
  made : ∃ name body head, r = make name body head .forward
  flat : ∀ c ∈ r.clauses, ∀ n ∈ c.nodes, n.isFunctor = false
  head : ∃ h, r.head = [.pattern h] ∧ (∀ n ∈ h.nodes, n.isAny = false) ∧
    ∀ i ∈ h.indexes, i ∈ r.boundIndexes
  tests : ∀ c, Clause.call c ∈ r.body →
    ∃ b ∈ Builtin.comparisons ++ Builtin.kindTests, Registry.standard.get? c.name = some b
  /-- The variables of a call that patterns have are in a pattern before it. -/
  ordered : ∀ before c after, r.body = before ++ .call c :: after →
    ∀ i ∈ Node.indexesAll c.args, i ∈ r.boundIndexes →
      ∃ p, Clause.pattern p ∈ before ∧ i ∈ p.indexes

namespace Rule.Reversible

variable {r : Rule}

theorem asksTests (hr : r.Reversible) : r.AsksTests Registry.standard := by
  intro c hc
  obtain ⟨b, hb, hget⟩ := hr.tests c hc
  exact ⟨⟨b, hget, Builtin.isBlindTest_of_mem hb⟩,
    hr.flat (.call c) (List.mem_append_left _ hc)⟩

theorem isTest (hr : r.Reversible) : ∀ c, Clause.call c ∈ r.body → c.IsTest Registry.standard := by
  intro c hc
  obtain ⟨⟨b, hget, name, arity, test, rfl, _⟩, _⟩ := hr.asksTests c hc
  exact ⟨name, arity, test, hget⟩

theorem shallow (hr : r.Reversible) {c : Clause} (hc : c ∈ r.clauses) :
    ∀ n ∈ c.nodes, n.Shallow :=
  fun n hn => Node.shallow_of_flat (hr.flat c hc n hn)

theorem determined (hr : r.Reversible) : r.Determined := by
  intro h hh
  obtain ⟨k, hhead, hclosed, hbound⟩ := hr.head
  have hshallow := hr.shallow (List.mem_append_right _ hh)
  rw [hhead] at hh
  cases List.mem_singleton.1 hh
  exact ⟨hshallow, hclosed, hbound⟩

theorem elementary (hr : r.Reversible) : r.Elementary where
  made := hr.made
  plain p hp := by
    have hflat := hr.flat _ (List.mem_append_left _ hp) p.predicate (by simp [Clause.nodes, Triple.nodes])
    unfold Triple.hasPlainPredicate
    cases hpredicate : p.predicate with
    | functor f args =>
        rw [hpredicate] at hflat
        cases hflat
    | _ => simp [Triple.hasOpenPredicate, hpredicate, Node.isVariable, Node.isAny, Node.isGround]
  head c hc := by
    obtain ⟨h, hhead, hclosed, hbound⟩ := hr.head
    have hflat := hr.flat c (List.mem_append_right _ hc)
    rw [hhead] at hc
    cases List.mem_singleton.1 hc
    refine ⟨h, rfl, fun n hn => ⟨hflat n hn, hclosed n hn, fun i hi => hbound i ?_⟩⟩
    rw [Triple.indexes_eq]
    simp only [Triple.nodes, List.mem_cons, List.not_mem_nil, or_false] at hn
    rcases hn with rfl | rfl | rfl <;> simp [hi]

theorem callsOnly (hr : r.Reversible) : r.CallsOnly Registry.standard (· ∈ Builtin.graphFree) := by
  intro c hc b hb
  obtain ⟨d, hd, hget⟩ := hr.tests c hc
  obtain rfl : d = b := Option.some.inj (hget.symm.trans hb)
  have hnames : ∀ b ∈ Builtin.comparisons ++ Builtin.kindTests, b.name ∈ Builtin.graphFree := by
    decide +kernel
  exact hnames d hd

end Rule.Reversible

/-! ## Asked backward -/

namespace Node

variable {n : Node} {f : Var → Var}

theorem isAny_renamed (f : Var → Var) (n : Node) : (n.subst fun v => .var (f v)).isAny = n.isAny := by
  cases n <;> rfl

theorem isFunctor_renamed (f : Var → Var) (n : Node) :
    (n.subst fun v => .var (f v)).isFunctor = n.isFunctor := by
  cases n <;> rfl

theorem mem_substAll {f : Var → Var} {ns : List Node} {m : Node} :
    m ∈ substAll (fun v => .var (f v)) ns ↔ ∃ n ∈ ns, (n.subst fun v => .var (f v)) = m := by
  induction ns with
  | nil => exact ⟨(fun h => nomatch h), fun ⟨_, h, _⟩ => nomatch h⟩
  | cons n ns ih =>
      rw [substAll, List.mem_cons, ih]
      simp [eq_comm]

end Node

theorem Triple.mem_nodes_renamed {f : Var → Var} {t : Triple} {m : Node} :
    m ∈ (t.renamed f).nodes ↔ ∃ n ∈ t.nodes, (n.subst fun v => .var (f v)) = m := by
  simp [nodes, renamed, map, eq_comm]

namespace Rule.RenamedTo

variable {r r' : Rule} {f : Var → Var}

/-- A variable of a renamed clause is the image of one that is bound together with it. -/
theorem mem_boundIndexes_of_renamed (h : r.RenamedTo f r') {vs : List Var}
    (hvs : ∀ v ∈ vs, v ∈ r.vars) {i : Nat} (hi : i ∈ (vs.map f).map Var.index) :
    ∃ v ∈ vs, (f v).index = i ∧ (i ∈ r'.boundIndexes ↔ v.index ∈ r.boundIndexes) := by
  rw [List.map_map] at hi
  obtain ⟨v, hv, rfl⟩ := List.mem_map.1 hi
  exact ⟨v, hv, rfl, h.mem_boundIndexes_iff (hvs v hv)⟩

theorem ready (h : r.RenamedTo f r') (hr : r.Reversible) {before after : List Clause} {c : Call}
    (hbody : r'.body = before ++ .call c :: after) : c.Ready Registry.standard r' before := by
  rw [h.body] at hbody
  obtain ⟨before, rest, hsplit, rfl, hrest⟩ := List.map_eq_append_iff.1 hbody
  obtain ⟨clause, after, rfl, hclause, rfl⟩ := List.map_eq_cons_iff.1 hrest
  cases clause with
  | pattern p => cases hclause
  | call d =>
      cases hclause
      have hd : Clause.call d ∈ r.body := by
        rw [hsplit]
        simp
      obtain ⟨⟨b, hget, name, arity, test, rfl, hblind⟩, hflat⟩ := hr.asksTests d hd
      refine ⟨⟨name, arity, test, hget, fun as bs hsame => hblind as bs ?_⟩, ?_, ?_⟩
      · exact (list_beq_iff_forall₂.1 hsame).imp fun _ _ => Or.inl
      · intro n hn
        obtain ⟨m, hm, rfl⟩ := Node.mem_substAll.1 hn
        exact (Node.isFunctor_renamed f m).trans (hflat m hm)
      · intro i hi hbound
        change i ∈ (Node.varsAll (Node.substAll _ d.args)).map Var.index at hi
        rw [Node.varsAll_subst] at hi
        obtain ⟨v, hv, rfl, hiff⟩ := h.mem_boundIndexes_of_renamed
          (fun v hv => mem_vars_of_body (c := .call d) hd hv) hi
        obtain ⟨p, hp, hip⟩ := hr.ordered before d after hsplit v.index
          (List.mem_map.2 ⟨v, hv, rfl⟩) (hiff.1 hbound)
        refine ⟨p.renamed f, List.mem_map.2 ⟨_, hp, rfl⟩, ?_⟩
        obtain ⟨w, hw, hindex⟩ := List.mem_map.1 hip
        have hpbody : Clause.pattern p ∈ r.body := by
          rw [hsplit]
          exact List.mem_append_left _ hp
        rw [Triple.indexes, Triple.vars_renamed, List.map_map]
        refine List.mem_map.2 ⟨w, hw, ?_⟩
        exact (h.faithful w (mem_vars_of_body (c := .pattern p) hpbody hw) v
          (mem_vars_of_body (c := .call d) hd hv)).1 hindex

end Rule.RenamedTo

/-- Turned round, a rule for both modes can be asked. -/
theorem Rule.Reversible.plain {r : Rule} (hr : r.Reversible) {g : GoalRule} (hg : g.rule = r.withDirection .backward)
    (hhead : g.rule.head = [.pattern g.head]) : g.Plain Registry.standard := by
  obtain ⟨name, body, head, hmade⟩ := hr.made
  obtain ⟨f, h⟩ := renamedTo_withDirection ⟨name, body, head, _, hmade⟩ .backward
  rw [← hg] at h
  obtain ⟨k, hk, hclosed, hbound⟩ := hr.head
  have hkmem : Clause.pattern k ∈ r.head := by
    rw [hk]
    exact List.mem_singleton.2 rfl
  have hgoal : g.head = k.renamed f := by
    have heads := hhead.symm.trans (h.head.trans (congrArg (List.map (Clause.renamed f)) hk))
    exact Clause.pattern.inj (List.cons.inj heads).1
  refine ⟨hhead, fun i hi => ?_, ?_, ?_, ?_, ?_, fun before c after hsplit => h.ready hr hsplit⟩
  · exact lt_numVars_of_mem_boundIndexes ⟨_, _, _, _, hg⟩ hi
  · rw [hgoal]
    exact Triple.Shallow.renamed (hr.shallow (List.mem_append_right _ hkmem)) f
  · rw [hgoal]
    intro n hn
    obtain ⟨m, hm, rfl⟩ := Triple.mem_nodes_renamed.1 hn
    exact (Node.isAny_renamed f m).trans (hclosed m hm)
  · rw [hgoal]
    intro i hi
    rw [Triple.indexes, Triple.vars_renamed] at hi
    obtain ⟨v, hv, rfl, hiff⟩ := h.mem_boundIndexes_of_renamed
      (fun v hv => mem_vars_of_head (c := .pattern k) hkmem hv) hi
    exact hiff.2 (hbound _ (List.mem_map.2 ⟨v, hv, rfl⟩))
  · intro p hp
    rw [h.body] at hp
    obtain ⟨q, hq, rfl⟩ := pattern_mem_renamed.1 hp
    exact Triple.Shallow.renamed (hr.shallow (List.mem_append_left _ hq)) f

/-! ## Run forward -/

theorem Network.hidesNothing {rules : List Rule} {n : Network}
    (hn : compile rules Registry.standard = .ok n) (hrules : ∀ r ∈ rules, r.Reversible) :
    n.HidesNothing := by
  obtain ⟨_, hregistry, hcompiled⟩ := compile_eq_ok hn
  intro c hc ctx st
  rw [hcompiled] at hc
  obtain ⟨r, hr, rfl⟩ := List.mem_map.1 hc
  have htests : ∀ call ∈ (CompiledRule.ofRule Registry.standard r).calls,
      call.IsTest n.registry := by
    intro call hcall
    rw [hregistry]
    exact (hrules r hr).isTest call (Rule.mem_calls_iff.1 hcall)
  have hstate := (allHold_tests htests ctx st).1
  unfold CompiledRule.evaluate
  split
  · rename_i st' hasked
    rw [hasked] at hstate
    rw [hstate]
  · rename_i st' hasked
    rw [hasked] at hstate
    obtain rfl : st' = st := hstate
    obtain ⟨h, hhead, _⟩ := (hrules r hr).head
    change (r.conclude n.registry ctx st').2.effects.hidden = _
    unfold Rule.conclude
    rw [hhead]
    rfl

section Deducing

variable {rules : List Rule} {registry : Registry} {base : MemoryGraph} {v : View MemoryGraph}
  {D : Set Triple}

/-- The base and the least closed set over it make up what follows from the base. -/
theorem union_eq_consequences
    (htests : ∀ r ∈ rules, ∀ c, Clause.call c ∈ r.body → c.IsTest registry)
    (hD : IsLeast {S : Set Triple | Closed rules registry base v S} D) :
    {t | base.contains t = true ∨ t ∈ D} =
      consequences rules registry {t | base.contains t = true} := by
  have hcalls : ∀ r ∈ rules, ∀ σ : Assignment, r.CallsHold registry v (r.environment σ) ↔
      ∀ c, Clause.call c ∈ r.body → c.Passes registry (r.environment σ) :=
    fun r hr σ => Rule.callsHold_iff_passes (htests r hr) v _
  ext t
  constructor
  · rintro (ht | ht)
    · exact ⟨0, ht⟩
    · refine hD.2 (fun r hr σ hbody hholds h hh t hfits => ?_) ht
      refine model_consequences.closed r hr σ ⟨fun p hp => ?_, (hcalls r hr σ).1 hholds⟩ h hh t hfits
      obtain ⟨u, hfits', hu⟩ := hbody p hp
      exact ⟨u, hu.elim (fun hbase => ⟨0, hbase⟩) id, hfits'⟩
  · intro ht
    refine isLeast_consequences.2 (show Model rules registry _ _ from ?_) ht
    refine ⟨fun u hu => Or.inl hu, fun r hr σ happlies h hh u hfits => Or.inr ?_⟩
    refine hD.1 r hr σ (fun p hp => ?_) ((hcalls r hr σ).2 happlies.calls) h hh u hfits
    obtain ⟨w, hw, hfits'⟩ := happlies.patterns p hp
    exact ⟨w, hfits', hw⟩

end Deducing

/-- What is known of the engine of a graph that has been bound. -/
structure Engine.Bound (n : Network) (base : MemoryGraph) (e : Engine MemoryGraph) : Prop where
  settling : e.Settling n
  unhidden : Work.Open n e
  base_eq : e.base = base

namespace Outcome

variable {σ : Type}

/-- The state of work that is done. -/
def finished? : Outcome σ Unit → Option σ
  | .done _ s => some s
  | _ => none

theorem eq_done_of_isSome {outcome : Outcome σ Unit} (h : outcome.finished?.isSome = true) (s : σ) :
    outcome = .done () (outcome.finished?.getD s) := by
  cases outcome with
  | done _ s' => rfl
  | failed _ _ => cases h
  | unfinished => cases h

end Outcome

namespace Reasoner

variable {r : Reasoner} {rules : List Rule} {base : MemoryGraph} {budget : Nat} {world : World}
  {g : InferenceGraph MemoryGraph}

theorem bound_of_bind (hn : Network.compile rules Registry.standard = .ok r.network)
    (hrules : ∀ rule ∈ rules, rule.Reversible) (hbase : base.Reachable)
    (hflat : ∀ t, base.contains t = true → t.MadeOf fun m => m.isNested = false)
    (h : r.bind budget base world = .done () g) :
    g.solver = r.solver ∧ g.engine.Bound r.network base := by
  let e : Engine MemoryGraph :=
    { Engine.start r.network base with
      logging := r.config.derivationLogging
      traceFirings := r.config.traceFirings
      maxRechecks := r.config.maxRecheckRounds
      world }
  have hdone : (e.recompute budget).mapState
      (InferenceGraph.withEngine ⟨e, r.solver, r.config.mode⟩) = .done () g := h
  cases hrecompute : e.recompute budget with
  | failed cause e' =>
      rw [hrecompute] at hdone
      cases hdone
  | unfinished =>
      rw [hrecompute] at hdone
      cases hdone
  | done value e' =>
      rw [hrecompute] at hdone
      cases hdone
      have hcallsOnly := fun rule hrule => (hrules rule hrule).callsOnly
      have helementary := Network.elementary_of_standard hn
        (fun rule hrule => (hrules rule hrule).elementary)
        fun rule hrule call hcall b hb => Or.inl (hcallsOnly rule hrule call hcall b hb)
      have htame := Network.tame_of_elementary hn fun rule hrule => (hrules rule hrule).elementary
      have hends := Engine.ends_restart_asked (e := e) (Network.compile_eq_ok hn).1 helementary
        htame rfl hbase.sound hflat
      have hleaves : (e.recompute budget).state? = some e' := by
        rw [hrecompute]
        rfl
      obtain ⟨_, e₁, last, _, hasked, hsame, hruns⟩ :=
        Engine.exists_runs_of_operate hends rfl hleaves
      refine ⟨rfl, hasked.settling helementary hruns (Or.inl ?_), ?_,
        (hasked.base_eq helementary hruns).trans hsame⟩
      · exact Network.isMonotonic_of_standard hn helementary hcallsOnly
      · exact Engine.open_of_recompute (Network.hidesNothing hn hrules) hrecompute

end Reasoner

/-! ## Finding -/

/-- The nodes that a pattern asks for are simple. -/
def TriplePattern.Simple (p : TriplePattern) : Prop :=
  ∀ n, p.subject = some n ∨ p.predicate = some n ∨ p.object = some n → n.Simple

namespace InferenceGraph

variable {p : TriplePattern} {t : Triple}

theorem shallow_goal (hp : p.Simple) : (goal p).Shallow := by
  have hnode : ∀ position : Option Node, (∀ n, position = some n → n.Simple) →
      (position.getD .any).Shallow := by
    intro position hsimple
    cases position with
    | none => trivial
    | some n => exact (hsimple n rfl).shallow
  exact Triple.shallow_iff.2 ⟨hnode _ fun n hn => hp n (Or.inl hn),
    hnode _ fun n hn => hp n (Or.inr (Or.inl hn)), hnode _ fun n hn => hp n (Or.inr (Or.inr hn))⟩

/-- A goal that comes from a pattern has as its instances what the pattern accepts. -/
theorem exists_fits_goal_iff (hp : p.Simple) :
    (∃ σ, (goal p).numbered.Fits σ t) ↔ p.accepts t = true := by
  obtain ⟨names, _, hnumbered⟩ := (goal p).numbered_eq
  have hnode : ∀ (position : Option Node) (m : Node) σ, (∀ n, position = some n → n.Simple) →
      (((position.getD .any).subst fun v => .var (names.place v)).Fits σ m ↔
        TriplePattern.allows position m = true) := by
    intro position m σ hsimple
    cases position with
    | none => exact ⟨fun _ => rfl, fun _ => trivial⟩
    | some n =>
        rw [Option.getD_some, Node.subst_of_ground (hsimple n rfl).ground,
          Node.fits_iff_beq (hsimple n rfl).ground]
        exact Iff.rfl
  have hall : ∀ σ, (goal p).numbered.Fits σ t ↔ p.accepts t = true := by
    intro σ
    rw [hnumbered, TriplePattern.accepts, Bool.and_eq_true, Bool.and_eq_true,
      ← hnode p.subject t.subject σ fun n hn => hp n (Or.inl hn),
      ← hnode p.predicate t.predicate σ fun n hn => hp n (Or.inr (Or.inl hn)),
      ← hnode p.object t.object σ fun n hn => hp n (Or.inr (Or.inr hn))]
    exact ⟨fun h => ⟨⟨h.subject, h.predicate⟩, h.object⟩, fun h => ⟨h.1.1, h.1.2, h.2⟩⟩
  constructor
  · rintro ⟨σ, hσ⟩
    exact (hall σ).1 hσ
  · intro h
    exact ⟨fun _ => .any, (hall _).2 h⟩

section

variable {g : InferenceGraph MemoryGraph} {stored : Set Triple} {ts : List Triple}

/-- What is visible is what follows by the rules that are asked backward, as far as the
pattern accepts it. -/
theorem any_visible_iff (hs : g.solver.Suits g.engine.view stored) (hp : p.Simple)
    (h : (g.visible p).1 = .ok ts) (t : Triple) :
    ts.any (· == t) = true ↔ t ∈ g.solver.follows stored ∧ p.accepts t = true := by
  have hstored : ∀ u ∈ stored, u ∈ g.solver.follows stored := fun u hu => ⟨0, hu⟩
  unfold visible at h
  cases hview : g.engine.view.find p with
  | error cause =>
      rw [hview] at h
      cases h
  | ok shown =>
      have hshown := hs.shows p shown hview t
      rw [hview] at h
      simp only at h
      split at h
      · rename_i hempty
        cases h
        rw [hshown, Solver.follows, List.isEmpty_iff.1 hempty, List.map_nil, consequences_nil]
      · cases hsolve : (g.solver.solve g.engine.view (goal p) g.world).1 with
        | error cause =>
            rw [hsolve] at h
            cases h
        | ok answers =>
            rw [hsolve] at h
            cases h
            have hanswers := (hs.answers_of_solve (shallow_goal hp) hsolve).2 t
            have hany := OrderedSet.contains_ofList (shown ++ answers) t
            rw [OrderedSet.contains] at hany
            rw [hany, List.any_append, Bool.or_eq_true, hshown, hanswers, exists_fits_goal_iff hp]
            exact ⟨fun h => h.elim (And.imp_left (hstored t)) id, Or.inr⟩

theorem any_find_iff (hs : g.solver.Suits g.engine.view stored)
    (hhidden : g.engine.hidden = .empty) (hp : p.Simple) (h : (g.find p).1 = .ok ts) (t : Triple) :
    ts.any (· == t) = true ↔ t ∈ g.solver.follows stored ∧ p.accepts t = true := by
  unfold find at h
  split at h
  · cases h
  cases hvisible : (g.visible p).1 with
  | error cause =>
      simp only [hvisible] at h
      cases h
  | ok shown =>
      simp only [hvisible] at h
      cases h
      have hall : (shown.filter fun t => !g.engine.isHidden t) = shown := by
        refine List.filter_eq_self.2 fun u _ => ?_
        rw [Engine.isHidden, hhidden]
        rfl
      simp only [hall]
      exact any_visible_iff hs hp hvisible t

end

end InferenceGraph

/-! ## Agreement -/

/-- Rules that are turned round leave what follows as it is. -/
theorem consequences_turned {rules : List Rule} (hrules : ∀ r ∈ rules, r.Reversible)
    (hturned : ∀ r ∈ rules, (r.withDirection .backward).Determined) {stored : Set Triple}
    (hstored : ∀ t ∈ stored, t.MadeOf Node.Simple) :
    consequences (rules.map (·.withDirection .backward)) Registry.standard stored =
      consequences rules Registry.standard stored := by
  have hconclusions : ∀ r ∈ rules, ∀ S : Set Triple, (∀ t ∈ S, t.MadeOf Node.Simple) →
      (r.withDirection .backward).conclusions Registry.standard S =
        r.conclusions Registry.standard S := by
    intro r hr S hS
    obtain ⟨name, body, head, hmade⟩ := (hrules r hr).made
    obtain ⟨f, h⟩ := Rule.renamedTo_withDirection ⟨name, body, head, _, hmade⟩ .backward
    exact h.conclusions_eq (hrules r hr).asksTests hS
  apply Set.eq_of_subset_of_subset
  · refine consequences_subset (fun r' hr' => ?_) hstored fun r' hr' => ?_
    · obtain ⟨r, hr, rfl⟩ := List.mem_map.1 hr'
      exact hturned r hr
    · obtain ⟨r, hr, rfl⟩ := List.mem_map.1 hr'
      exact ⟨r, hr, fun S hS => (hconclusions r hr S hS).le⟩
  · exact consequences_subset (fun r hr => (hrules r hr).determined) hstored fun r hr =>
      ⟨_, List.mem_map_of_mem hr, fun S hS => (hconclusions r hr S hS).ge⟩

namespace Engine.Bound

variable {rules : List Rule} {n : Network} {base : MemoryGraph} {e : Engine MemoryGraph}

theorem stored_eq (he : e.Bound n base) (hn : Network.compile rules Registry.standard = .ok n)
    (hrules : ∀ r ∈ rules, r.Reversible) :
    e.view.stored {t | e.view.base.contains t = true} =
      consequences rules Registry.standard {t | base.contains t = true} := by
  have hcallsOnly := fun r hr => (hrules r hr).callsOnly
  have helementary := Network.elementary_of_standard hn (fun r hr => (hrules r hr).elementary)
    fun r hr call hcall b hb => Or.inl (hcallsOnly r hr call hcall b hb)
  have hleast := he.settling.isLeast hn helementary (v := e.view)
    (Or.inl (Network.isMonotonic_of_standard hn helementary hcallsOnly))
  rw [← he.base_eq]
  exact union_eq_consequences (fun r hr => (hrules r hr).isTest) hleast

end Engine.Bound

/-- A solver for rules that are turned round answers from what an engine has stored. -/
theorem Solver.suits_of_bound {rules backward : List Rule} {n : Network} {base : MemoryGraph}
    {e : Engine MemoryGraph} {s : Solver} {maxDepth : Nat} (he : e.Bound n base)
    (hn : Network.compile rules Registry.standard = .ok n) (hrules : ∀ r ∈ rules, r.Reversible)
    (hs : ofRules (backward.map (·.withDirection .backward)) Registry.standard maxDepth = .ok s)
    (hbackward : ∀ r ∈ backward, r.Reversible)
    (hsimple : ∀ t, base.contains t = true → t.MadeOf Node.Simple) :
    s.Suits e.view (consequences rules Registry.standard {t | base.contains t = true}) ∧
      s.follows (consequences rules Registry.standard {t | base.contains t = true}) =
        consequences backward Registry.standard
          (consequences rules Registry.standard {t | base.contains t = true}) := by
  obtain ⟨hmap, hregistry, hheads⟩ := ofRules_eq_ok hs
  have hplain : ∀ g ∈ s.rules, g.Plain Registry.standard := by
    intro g hg
    have hmem : g.rule ∈ backward.map (·.withDirection .backward) := by
      rw [← hmap]
      exact List.mem_map_of_mem hg
    obtain ⟨r, hr, hturned⟩ := List.mem_map.1 hmem
    exact (hbackward r hr).plain hturned.symm (hheads g hg)
  have hstored : ∀ t ∈ consequences rules Registry.standard {t | base.contains t = true},
      t.MadeOf Node.Simple :=
    simple_of_consequences (fun r hr => (hrules r hr).determined) hsimple
  have hconsistent := he.settling.steady.consistent
  refine ⟨⟨?_, ?_, hstored, hregistry ▸ hplain⟩, ?_⟩
  · rw [← he.stored_eq hn hrules]
    exact View.shows_stored hconsistent.base.holds hconsistent.deductions
  · rintro t u hsame ⟨height, ht⟩
    exact ⟨height, derivable_congr (fun t u hsame ht => (base.contains_congr hsame).symm.trans ht)
      hsame ht⟩
  · rw [follows, hmap, hregistry]
    refine consequences_turned hbackward (fun r hr => ?_) hstored
    have hmem : r.withDirection .backward ∈ s.rules.map GoalRule.rule := by
      rw [hmap]
      exact List.mem_map_of_mem hr
    obtain ⟨g, hg, hrule⟩ := List.mem_map.1 hmem
    exact hrule ▸ (hplain g hg).determined

namespace Reasoner

theorem exists_of_bind_eq_ok {ε α β : Type} {x : Except ε α} {f : α → Except ε β} {b : β}
    (h : x >>= f = .ok b) : ∃ a, x = .ok a ∧ f a = .ok b := by
  cases x with
  | error cause => cases h
  | ok a => exact ⟨a, rfl, h⟩

/-- What making a reasoner comes to. -/
theorem make_eq_ok {rules : RuleSet} {registry : Registry} {config : Config} {r : Reasoner}
    (h : make rules registry config = .ok r) :
    ∃ forward backward, assign rules config.mode = .ok (forward, backward) ∧
      Network.compile forward registry = .ok r.network ∧
      Solver.ofRules backward registry config.maxBackwardDepth = .ok r.solver := by
  obtain ⟨_, _, hcompile⟩ := exists_of_bind_eq_ok h
  obtain ⟨⟨forward, backward⟩, hassign, hrest⟩ := exists_of_bind_eq_ok hcompile
  obtain ⟨n, hnetwork, hrest⟩ := exists_of_bind_eq_ok hrest
  obtain ⟨s, hsolver, hrest⟩ := exists_of_bind_eq_ok hrest
  cases hrest
  exact ⟨forward, backward, hassign, hnetwork, hsolver⟩

theorem assign_forward {rules : RuleSet} {forward backward : List Rule}
    (h : assign rules .forward = .ok (forward, backward)) :
    forward = rules.rules ∧ backward = [] := by
  unfold assign at h
  cases hfind : rules.rules.find? Rule.isBackward with
  | some r =>
      simp only [hfind] at h
      cases h
  | none =>
      simp only [hfind] at h
      cases h
      exact ⟨rfl, rfl⟩

theorem assign_backward {rules : RuleSet} (hrules : ∀ r ∈ rules.rules, r.Reversible)
    {forward backward : List Rule} (h : assign rules .backward = .ok (forward, backward)) :
    forward = [] ∧ backward = rules.rules.map (·.withDirection .backward) := by
  cases h
  refine ⟨rfl, List.map_congr_left fun r hr => ?_⟩
  obtain ⟨name, body, head, hmade⟩ := (hrules r hr).made
  rw [hmade]
  rfl

/-- What a graph finds that has been bound with rules that run forward and others that are
asked backward: whatever follows by the ones from what follows by the others. -/
theorem any_find_of_bind {rules backward : List Rule} {r : Reasoner} {maxDepth : Nat}
    (hn : Network.compile rules Registry.standard = .ok r.network)
    (hs : Solver.ofRules (backward.map (·.withDirection .backward)) Registry.standard maxDepth =
      .ok r.solver)
    (hrules : ∀ rule ∈ rules, rule.Reversible) (hbackward : ∀ rule ∈ backward, rule.Reversible)
    {base : MemoryGraph} (hbase : base.Reachable) (hflat : ∀ t, base.contains t = true → t.Flat)
    {budget : Nat} {world : World} {g : InferenceGraph MemoryGraph}
    (hbind : r.bind budget base world = .done () g) {p : TriplePattern} (hp : p.Simple)
    {found : List Triple} (h : (g.find p).1 = .ok found) (t : Triple) :
    found.any (· == t) = true ↔ p.accepts t = true ∧
      t ∈ consequences backward Registry.standard
        (consequences rules Registry.standard {t | base.contains t = true}) := by
  have hsimple : ∀ t, base.contains t = true → t.MadeOf Node.Simple := by
    intro t ht
    exact Triple.madeOf_simple_iff.2 ⟨hbase.sound.isGround t ht, (hflat t ht).shallow⟩
  obtain ⟨hsolver, hbound⟩ := bound_of_bind hn hrules hbase
    (fun t ht n hn => (hsimple t ht n hn).flat) hbind
  rw [← hsolver] at hs
  obtain ⟨hsuits, hfollows⟩ := Solver.suits_of_bound hbound hn hrules hs hbackward hsimple
  rw [InferenceGraph.any_find_iff hsuits hbound.unhidden.hidden_eq hp h t, hfollows]
  exact and_comm

/-- Whether the rules run forward or are asked backward, a graph finds the same. -/
theorem find_agree {rules : RuleSet} (hrules : ∀ r ∈ rules.rules, r.Reversible)
    {eager lazily : Config} (heager : eager.mode = .forward) (hlazily : lazily.mode = .backward)
    {forward backward : Reasoner} (hforward : make rules Registry.standard eager = .ok forward)
    (hbackward : make rules Registry.standard lazily = .ok backward)
    {base : MemoryGraph} (hbase : base.Reachable) (hflat : ∀ t, base.contains t = true → t.Flat)
    {budget budget' : Nat} {world world' : World} {stored asked : InferenceGraph MemoryGraph}
    (hstored : forward.bind budget base world = .done () stored)
    (hasked : backward.bind budget' base world' = .done () asked)
    {p : TriplePattern} (hp : p.Simple) {found found' : List Triple}
    (h : (stored.find p).1 = .ok found) (h' : (asked.find p).1 = .ok found') (t : Triple) :
    found.any (· == t) = found'.any (· == t) := by
  obtain ⟨_, _, hassign, hn, hs⟩ := make_eq_ok hforward
  rw [heager] at hassign
  obtain ⟨rfl, rfl⟩ := assign_forward hassign
  obtain ⟨_, _, hassign', hn', hs'⟩ := make_eq_ok hbackward
  rw [hlazily] at hassign'
  obtain ⟨rfl, rfl⟩ := assign_backward hrules hassign'
  have hnone : ∀ rule ∈ ([] : List Rule), rule.Reversible := fun _ h => nomatch h
  have hidle : Solver.ofRules (([] : List Rule).map (·.withDirection .backward)) Registry.standard
      eager.maxBackwardDepth = .ok forward.solver := hs
  have heagerly := any_find_of_bind hn hidle hrules hnone hbase hflat hstored hp h t
  have hondemand := any_find_of_bind hn' hs' hnone hrules hbase hflat hasked hp h' t
  rw [Bool.eq_iff_iff, heagerly, hondemand, consequences_nil, consequences_nil]

/-- The base of the crossing rule. -/
def linked : MemoryGraph := MemoryGraph.empty.plus Engine.link

def crosser (config : Config) : Reasoner :=
  (make ⟨"", [Engine.crossing]⟩ Registry.standard config).toOption.getD default

/-- The graph with what the rule concludes, in the mode of the configuration. -/
def crossedIn (config : Config) : InferenceGraph MemoryGraph :=
  ((crosser config).bind 20 linked {}).finished?.getD
    ⟨Engine.start default .empty, default, .hybrid⟩

def linksOf (name : String) : TriplePattern := { subject := some (.uri name) }

def crossingsOf (name : String) (config : Config) : List Triple :=
  ((crossedIn config).find (linksOf name)).1.toOption.getD []

theorem reversible_crossing : Engine.crossing.Reversible where
  made := ⟨_, _, _, rfl⟩
  flat := by decide +kernel
  head := ⟨_, rfl, by decide +kernel, by decide +kernel⟩
  tests c hc := by
    rcases List.mem_cons.1 hc with h | h
    · cases h
    · cases List.mem_singleton.1 h
      exact ⟨.comparison "notEqual" fun a b => !a.sameValue b, by simp [Builtin.comparisons], rfl⟩
  ordered before c after hbody i hi _ := by
    rcases before with _ | ⟨p, _ | ⟨d, before⟩⟩
    · cases hbody
    · cases hbody
      exact ⟨_, List.mem_singleton.2 rfl, by revert i; decide +kernel⟩
    · have hlength := congrArg List.length hbody
      rw [show Engine.crossing.body.length = 2 from rfl] at hlength
      simp at hlength

theorem bind_crosser {config : Config}
    (h : ((crosser config).bind 20 linked {}).finished?.isSome = true) :
    (crosser config).bind 20 linked {} = .done () (crossedIn config) :=
  Outcome.eq_done_of_isSome h _

theorem find_agree_crossing : (crossingsOf "b" .forward).length = 1 ∧
    ∀ t, (crossingsOf "b" .forward).any (· == t) = (crossingsOf "b" .backward).any (· == t) := by
  have hbase : linked.Reachable := MemoryGraph.Reachable.empty.add
    (MemoryGraph.sound_empty.add_eq (t := Engine.link) rfl)
  refine ⟨by decide +kernel, find_agree ?_ rfl rfl (ok_getD_of_isSome (by decide +kernel))
    (ok_getD_of_isSome (by decide +kernel)) hbase ?_ (bind_crosser (by decide +kernel))
    (bind_crosser (by decide +kernel)) ?_ (ok_getD_of_isSome (by decide +kernel))
    (ok_getD_of_isSome (by decide +kernel))⟩
  · intro r hr
    obtain rfl := List.mem_singleton.1 hr
    exact reversible_crossing
  · intro t ht
    rw [linked, MemoryGraph.sound_empty.contains_plus rfl, Bool.or_eq_true] at ht
    refine Triple.Flat.congr ?_ (ht.resolve_left Bool.false_ne_true)
    unfold Triple.Flat
    decide
  · rintro n (h | h | h)
    · cases h
      exact ⟨rfl, rfl⟩
    · cases h
    · cases h

example : (crossingsOf "c" .backward).length = 0 := by decide +kernel

/-! ## Modes that differ -/

/-- What a reasoner finds over one link, if it can be made and bound. -/
def findsBy (rules : List Rule) (p : TriplePattern) (config : Config) : Option (List Triple) := do
  let reasoner ← (make ⟨"", rules⟩ Registry.standard config).toOption
  let g ← (reasoner.bind 20 linked {}).finished?
  (g.find p).1.toOption

/-- A call stands before the pattern that gives its variables values. -/
def hasty : Rule :=
  .make none
    [.call ⟨"notEqual", [.var ⟨"x", 0⟩, .var ⟨"y", 1⟩]⟩,
      .pattern ⟨.var ⟨"x", 0⟩, .uri "p", .var ⟨"y", 1⟩⟩]
    [.pattern ⟨.var ⟨"x", 0⟩, .uri "q", .var ⟨"y", 1⟩⟩] .forward

/-- The head leaves its object open. -/
def vague : Rule :=
  .make none [.pattern ⟨.var ⟨"x", 0⟩, .uri "p", .var ⟨"y", 1⟩⟩]
    [.pattern ⟨.var ⟨"x", 0⟩, .uri "q", .any⟩] .forward

def copying : Rule :=
  .make none [.pattern ⟨.var ⟨"x", 0⟩, .uri "p", .var ⟨"y", 1⟩⟩]
    [.pattern ⟨.var ⟨"x", 0⟩, .uri "q", .var ⟨"y", 1⟩⟩] .forward

/-- The copies with this object. -/
def copiesTo (object : Option Node) : TriplePattern := { predicate := some (.uri "q"), object }

/-- A call before its pattern, a head with a wildcard, and questions for a variable or for
a nested functor are answered otherwise backward than forward. -/
theorem not_find_agree_hasty :
    (findsBy [hasty] (copiesTo none) .forward).map List.length = some 1 ∧
      (findsBy [hasty] (copiesTo none) .backward).map List.length = some 0 ∧
    (findsBy [vague] (copiesTo none) .forward).map List.length = some 1 ∧
      (findsBy [vague] (copiesTo none) .backward).map List.length = some 0 ∧
    (findsBy [copying] (copiesTo (some (.var ⟨"w", 0⟩))) .forward).map List.length = some 0 ∧
      (findsBy [copying] (copiesTo (some (.var ⟨"w", 0⟩))) .backward).map List.length = some 1 ∧
    (findsBy [copying] (copiesTo (some (.functor "f" [.functor "g" [.uri "c"]]))) .forward).map
        List.length = some 0 ∧
      (findsBy [copying] (copiesTo (some (.functor "f" [.functor "g" [.uri "c"]]))) .backward).map
        List.length = some 1 := by
  decide +kernel

end Reasoner

end Entailment
