import Entailment.Proofs.Backward.Head
import Entailment.Proofs.Backward.Search
import Entailment.Proofs.Rule.Valuation
import Mathlib.Logic.Function.Basic

/-!
# Solving the body of a rule

A body is solved from left to right.  What has been solved has narrowed the environment
to assignments under which the head is an instance of the goal, the patterns are triples
that follow, and the calls pass.  When the whole body is solved the head has become one
fact, which follows.
-/

namespace Entailment

/-- The call asks a test that takes equal arguments alike, and where it is asked its
variables have their values, or they never get one. -/
structure Call.Ready (c : Call) (registry : Registry) (r : Rule) (before : List Clause) : Prop where
  test : ∃ name arity test, registry.get? c.name = some (.ofTest name arity test) ∧
    ∀ as bs, (as == bs) = true → test as = test bs
  flat : ∀ n ∈ c.args, n.isFunctor = false
  known : ∀ i ∈ Node.indexesAll c.args, i ∈ r.boundIndexes →
    ∃ p, Clause.pattern p ∈ before ∧ i ∈ p.indexes

namespace GoalRule

/-- The functors in the patterns of the rule are simple, its head is one triple that the
patterns of the body determine, and its calls are tests that can be asked in their places. -/
structure Plain (r : GoalRule) (registry : Registry) : Prop where
  conclusion : r.rule.head = [.pattern r.head]
  slots : ∀ i ∈ r.rule.boundIndexes, i < r.rule.numVars
  headShallow : r.head.Shallow
  headClosed : ∀ n ∈ r.head.nodes, n.isAny = false
  headBound : ∀ i ∈ r.head.indexes, i ∈ r.rule.boundIndexes
  bodyShallow : ∀ p, Clause.pattern p ∈ r.rule.body → p.Shallow
  ready : ∀ before c after, r.rule.body = before ++ .call c :: after →
    c.Ready registry r.rule before

/-- What the clauses that have been solved have made of the environment. -/
structure Solved (r : GoalRule) (registry : Registry) (goal : Triple) (M : Set Triple)
    (done : List Clause) (b : Bindings) : Prop where
  chained : b.Chained
  length_eq : b.length = r.rule.numVars
  answers : ∀ σ, b.Allows σ → ∀ t, r.head.Fits σ t → ∃ τ, goal.Fits τ t
  patterns : ∀ p, Clause.pattern p ∈ done → ∃ t ∈ M, ∀ σ, b.Allows σ → p.Fits σ t
  calls : ∀ c, Clause.call c ∈ done → ∀ σ, b.Allows σ →
    c.Passes registry (r.rule.environment σ)
  /-- Variables that no pattern of the body has stay free. -/
  free : ∀ i, i ∉ r.rule.boundIndexes → ∀ σ n, b.Allows σ → b.Allows (Function.update σ i n)

end GoalRule

/-- What a fact gives for a variable of a pattern. -/
theorem Triple.Shallow.exists_value {p : Triple} (hp : p.Shallow) {i : Nat} (hi : i ∈ p.indexes)
    (t : Triple) : ∃ n, ∀ σ, p.Fits σ t → (σ i == n) = true := by
  have hnode : ∀ {m : Node}, m.Shallow → i ∈ m.indexes →
      ∀ n σ, m.Fits σ n → (σ i == n) = true := by
    intro m hm hi n σ hfits
    rcases hm.cases with rfl | ⟨v, rfl⟩ | hsimple
    · cases hi
    · rw [List.mem_singleton.1 hi]
      exact hfits
    · rw [Node.indexes_of_ground hsimple.ground] at hi
      cases hi
  obtain ⟨hs, hpred, ho⟩ := shallow_iff.1 hp
  rw [indexes_eq, List.mem_append, List.mem_append] at hi
  rcases hi with (hi | hi) | hi
  · exact ⟨t.subject, fun σ h => hnode hs hi _ σ h.subject⟩
  · exact ⟨t.predicate, fun σ h => hnode hpred hi _ σ h.predicate⟩
  · exact ⟨t.object, fun σ h => hnode ho hi _ σ h.object⟩

theorem Triple.beq_of_fits {p t : Triple} {σ : Assignment} (hp : p.isGround = true)
    (h : p.Fits σ t) : (p == t) = true := by
  obtain ⟨hs, hpred, ho⟩ := isGround_iff.1 hp
  exact beq_iff.2 ⟨(Node.fits_iff_beq hs).1 h.subject, (Node.fits_iff_beq hpred).1 h.predicate,
    (Node.fits_iff_beq ho).1 h.object⟩

namespace GoalRule

variable {r : GoalRule} {registry : Registry} {goal : Triple} {M : Set Triple}
  {done : List Clause} {b b' : Bindings}

theorem Plain.determined (hr : r.Plain registry) : r.rule.Determined := by
  intro h hh
  rw [hr.conclusion] at hh
  cases List.mem_singleton.1 hh
  exact ⟨hr.headShallow, hr.headClosed, hr.headBound⟩

/-! ## Entering a body -/

theorem Plain.lt_numVars (hr : r.Plain registry) : ∀ i ∈ r.head.indexes, i < r.rule.numVars :=
  fun i hi => hr.slots i (hr.headBound i hi)

/-- The head's environment after unification, before anything is solved. -/
theorem Plain.solved_nil (hr : r.Plain registry) (hgoal : goal.Shallow)
    (h : Bindings.unifyHead goal r.head r.rule.numVars = some b) :
    r.Solved registry goal M [] b := by
  rcases Bindings.unifyHead_cases hgoal hr.headShallow hr.lt_numVars with
    ⟨hnone, _⟩ | ⟨b', hsome, hb, hlength, hallows⟩
  · rw [hnone] at h
    cases h
  · rw [hsome] at h
    cases h
    refine ⟨hb, hlength, ?_, (fun _ h => nomatch h), (fun _ h => nomatch h), ?_⟩
    · intro σ hσ t hfits
      exact (Triple.exists_meets_iff hgoal hr.headShallow hr.headClosed hr.lt_numVars hfits).1
        ((hallows σ).1 hσ)
    · intro i hi σ n hσ
      obtain ⟨c, hmeets, hsame⟩ := (hallows σ).1 hσ
      rw [hallows]
      by_cases hlt : i < r.rule.numVars
      · refine ⟨Function.update c i n, hmeets.congr ?_ ?_, ?_⟩
        · intro j hj
          have hne : j ≠ i := fun heq => hi (heq ▸ hr.headBound j hj)
          rw [Function.update_of_ne hne]
          exact BEq.rfl
        · intro j hj
          obtain ⟨k, _, rfl⟩ := (Triple.mem_indexes_shifted _ hgoal).1 hj
          rw [Function.update_of_ne (by omega)]
          exact BEq.rfl
        · intro j hj
          by_cases heq : j = i
          · rw [heq, Function.update_self, Function.update_self]
            exact BEq.rfl
          · rw [Function.update_of_ne heq, Function.update_of_ne heq]
            exact hsame j hj
      · refine ⟨c, hmeets, fun j hj => ?_⟩
        rw [Function.update_of_ne (by omega)]
        exact hsame j hj

/-- If some instance of the goal is one of the head, unification finds it. -/
theorem Plain.exists_unifyHead (hr : r.Plain registry) (hgoal : goal.Shallow) {σ τ : Assignment}
    {t : Triple} (hhead : r.head.Fits σ t) (hfits : goal.Fits τ t) :
    ∃ b, Bindings.unifyHead goal r.head r.rule.numVars = some b ∧ b.Allows σ := by
  obtain ⟨c, hmeets, hsame⟩ := (Triple.exists_meets_iff hgoal hr.headShallow hr.headClosed
    hr.lt_numVars hhead).2 ⟨τ, hfits⟩
  rcases Bindings.unifyHead_cases hgoal hr.headShallow hr.lt_numVars with
    ⟨_, hnot⟩ | ⟨b, hsome, _, _, hallows⟩
  · exact absurd hmeets (hnot c)
  · exact ⟨b, hsome, (hallows σ).2 ⟨c, hmeets, hsame⟩⟩

/-! ## Solving a clause -/

namespace Solved

theorem next_pattern (h : r.Solved registry goal M done b) (hr : r.Plain registry) {p fact : Triple}
    (hp : Clause.pattern p ∈ r.rule.body) (hfact : fact ∈ M) (hground : fact.isGround = true)
    (hflat : fact.Shallow) (hmatch : b.matching? p fact = some b') :
    r.Solved registry goal M (done ++ [.pattern p]) b' := by
  obtain ⟨hchained, hlength, hallows⟩ :=
    h.chained.narrows_of_matching? (hr.bodyShallow p hp) hflat hground hmatch
  refine ⟨hchained, hlength.trans h.length_eq, ?_, ?_, ?_, ?_⟩
  · intro σ hσ
    exact h.answers σ ((hallows σ).1 hσ).1
  · intro q hq
    rcases List.mem_append.1 hq with hq | hq
    · obtain ⟨t, ht, hfits⟩ := h.patterns q hq
      exact ⟨t, ht, fun σ hσ => hfits σ ((hallows σ).1 hσ).1⟩
    · cases List.mem_singleton.1 hq
      exact ⟨fact, hfact, fun σ hσ => ((hallows σ).1 hσ).2⟩
  · intro c hc σ hσ
    rcases List.mem_append.1 hc with hc | hc
    · exact h.calls c hc σ ((hallows σ).1 hσ).1
    · cases List.mem_singleton.1 hc
  · intro i hi σ n hσ
    obtain ⟨hb, hfits⟩ := (hallows σ).1 hσ
    refine (hallows _).2 ⟨h.free i hi σ n hb, hfits.congr (fun j hj => ?_) BEq.rfl⟩
    have hne : j ≠ i := fun heq => hi (heq ▸ Rule.mem_boundIndexes_iff.2 ⟨p, hp, hj⟩)
    rw [Function.update_of_ne hne]
    exact BEq.rfl

theorem next_call (h : r.Solved registry goal M done b) {c : Call}
    (hpasses : ∀ σ, b.Allows σ → c.Passes registry (r.rule.environment σ)) :
    r.Solved registry goal M (done ++ [.call c]) b where
  chained := h.chained
  length_eq := h.length_eq
  answers := h.answers
  patterns p hp := by
    rcases List.mem_append.1 hp with hp | hp
    · exact h.patterns p hp
    · cases List.mem_singleton.1 hp
  calls d hd := by
    rcases List.mem_append.1 hd with hd | hd
    · exact h.calls d hd
    · cases List.mem_singleton.1 hd
      exact hpasses
  free := h.free

/-- The variables of solved patterns have their values. -/
theorem forces (h : r.Solved registry goal M done b) (hr : r.Plain registry) {p : Triple}
    (hdone : Clause.pattern p ∈ done) (hp : Clause.pattern p ∈ r.rule.body) {i : Nat}
    (hi : i ∈ p.indexes) : b.Forces i := by
  obtain ⟨t, _, hfits⟩ := h.patterns p hdone
  obtain ⟨n, hvalue⟩ := (hr.bodyShallow p hp).exists_value hi t
  refine ⟨?_, n, fun σ hσ => hvalue σ (hfits σ hσ)⟩
  rw [h.length_eq]
  exact hr.slots i (Rule.mem_boundIndexes_iff.2 ⟨p, hp, hi⟩)

theorem resolve_of_free (h : r.Solved registry goal M done b) {v : Var}
    (hv : v.index ∉ r.rule.boundIndexes) {σ : Assignment} (hσ : b.Allows σ) :
    b.resolve (.var v) = none := by
  rw [Option.eq_none_iff_forall_not_mem]
  intro n hn
  have hvalue : ∀ m, (m == n) = true := by
    intro m
    have hforced := h.chained.resolve_of_allows (h.free v.index hv σ m hσ) hn
    rwa [Function.update_self] at hforced
  have hapart := BEq.trans (hvalue (.uri "a")) (BEq.symm (hvalue (.uri "b")))
  exact absurd hapart (by decide)

/-- A call has the same arguments where it is asked and in the whole instance. -/
theorem resolvedArgs_beq (h : r.Solved registry goal M done b) (hr : r.Plain registry)
    (hdone : ∀ c ∈ done, c ∈ r.rule.body) {c : Call} (hc : c.Ready registry r.rule done)
    {σ : Assignment} (hσ : b.Allows σ) :
    (c.resolvedArgs b == c.resolvedArgs (r.rule.environment σ)) = true := by
  unfold Call.resolvedArgs
  rw [list_beq_iff_forall₂, List.forall₂_map_left_iff, List.forall₂_map_right_iff,
    List.forall₂_same]
  intro n hn
  have hflat := hc.flat n hn
  cases n with
  | functor f args => cases hflat
  | var v =>
      have hmem : v.index ∈ Node.indexesAll c.args :=
        Node.mem_indexesAll.2 ⟨_, hn, List.mem_singleton.2 rfl⟩
      by_cases hv : v.index ∈ r.rule.boundIndexes
      · obtain ⟨p, hp, hi⟩ := hc.known v.index hmem hv
        obtain ⟨m, hm, hsimple⟩ := h.chained.exists_resolve (h.forces hr hp (hdone _ hp) hi)
        have hsame := h.chained.resolve_of_allows hσ hm
        rw [hm, Rule.resolve_environment (hr.slots _ hv) hv (hsimple.congr (BEq.symm hsame))]
        exact BEq.symm hsame
      · rw [h.resolve_of_free hv hσ, Rule.resolve_environment_of_not_mem hv]
        exact BEq.rfl
  | _ => exact BEq.rfl

/-- A call that is asked passes in the whole instance or not at all. -/
theorem exists_test (h : r.Solved registry goal M done b) (hr : r.Plain registry)
    (hdone : ∀ c ∈ done, c ∈ r.rule.body) {c : Call} (hc : c.Ready registry r.rule done) :
    ∃ name arity test, registry.get? c.name = some (.ofTest name arity test) ∧
      ∀ σ, b.Allows σ → (c.Passes registry (r.rule.environment σ) ↔
        test (c.resolvedArgs b) = true) := by
  obtain ⟨name, arity, test, hget, hcongr⟩ := hc.test
  refine ⟨name, arity, test, hget, fun σ hσ => ?_⟩
  rw [hcongr _ _ (h.resolvedArgs_beq hr hdone hc hσ)]
  exact Call.passes_iff hget _

/-! ## The end of a body -/

/-- The fact that the head has become follows, and is an instance of the goal. -/
theorem conclusion (h : r.Solved registry goal M r.rule.body b) (hr : r.Plain registry)
    {rules : List Rule} {stored : Set Triple} (hM : Model rules registry stored M)
    (hmem : r.rule ∈ rules) (hground : (b.partialInstantiate r.head).isGround = true) :
    b.partialInstantiate r.head ∈ M ∧ ∃ τ, goal.Fits τ (b.partialInstantiate r.head) := by
  have hσ := h.chained.allows_settle fun _ => .any
  have hfits := (h.chained.fits_partialInstantiate_iff hσ hr.headShallow).1
    (Triple.fits_self hground _)
  have happlies : r.rule.Applies registry M (b.settle fun _ => .any) := by
    refine ⟨fun p hp => ?_, fun c hc => h.calls c hc _ hσ⟩
    obtain ⟨t, ht, hall⟩ := h.patterns p hp
    exact ⟨t, ht, hall _ hσ⟩
  have hhead : Clause.pattern r.head ∈ r.rule.head := by
    rw [hr.conclusion]
    exact List.mem_singleton.2 rfl
  exact ⟨hM.closed r.rule hmem _ happlies _ hhead _ hfits, h.answers _ hσ _ hfits⟩

/-- Whatever the head stands for in an instance that is allowed is that fact. -/
theorem head_eq (h : r.Solved registry goal M r.rule.body b) (hr : r.Plain registry)
    {σ : Assignment} (hσ : b.Allows σ) {t : Triple} (hfits : r.head.Fits σ t) :
    (b.partialInstantiate r.head).isGround = true ∧ (b.partialInstantiate r.head == t) = true := by
  have hground : (b.partialInstantiate r.head).isGround = true := by
    refine h.chained.isGround_partialInstantiate hr.headShallow hr.headClosed fun i hi => ?_
    obtain ⟨p, hp, hmem⟩ := Rule.mem_boundIndexes_iff.1 (hr.headBound i hi)
    exact h.forces hr hp hp hmem
  exact ⟨hground, Triple.beq_of_fits hground
    ((h.chained.fits_partialInstantiate_iff hσ hr.headShallow).2 hfits)⟩

end Solved

end GoalRule

end Entailment
