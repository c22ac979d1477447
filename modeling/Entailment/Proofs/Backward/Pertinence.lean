import Entailment.Proofs.Backward.Exactness
import Entailment.Proofs.Matching.Denotation

/-!
# Answers match the goal

Stored and tabled triples are compared with a goal before they answer it, but what a rule
concludes is not: it is an instance of the goal only because the head was unified with it.
The head's environment keeps what unification has made of it as long as every variable of
the head that leads to a node has a value.  Where one leads to a functor that is still open
the environment forgets it, and the body then answers with whatever it finds.
-/

namespace Entailment

namespace Unifier

variable {goal head t : Triple} {size : Nat} {u : Unifier} {b : Bindings} {θ : Assignment}

/-- Every slot of the head that leads to a node has a value, which the head's environment
gets. -/
def carries (u : Unifier) : Bool :=
  (List.range u.headSize).all fun i =>
    match u.bindings.deref i with
    | some (.ground _) => (u.bindings.value i).isSome
    | _ => true

theorem exists_value (h : u.carries = true) {i : Nat} (hi : i < u.headSize) {n : Node}
    (hn : u.bindings.deref i = some (.ground n)) : ∃ k, u.bindings.value i = some k := by
  have hslot := List.all_eq_true.1 h i (List.mem_range.2 hi)
  rw [hn] at hslot
  exact Option.isSome_iff_exists.1 hslot

/-! ## Unification with a goal -/

theorem ofGoal_eq_some (h : ofGoal goal head size = some u) :
    u.headSize = size ∧ (Bindings.empty (size + goal.varBound)).unifyTriple head
      (goal.shifted size) = (true, u.bindings) := by
  unfold ofGoal at h
  simp only at h
  split at h
  · rename_i b hresult
    cases h
    exact ⟨rfl, hresult⟩
  · cases h

theorem fills_of_ofGoal (h : ofGoal goal head size = some u) :
    (Bindings.empty (size + goal.varBound)).Fills u.bindings := by
  have hfills := Bindings.Fills.unifyTriple (Bindings.empty (size + goal.varBound)) head
    (goal.shifted size)
  rwa [(ofGoal_eq_some h).2] at hfills

theorem solid_of_ofGoal (h : ofGoal goal head size = some u) : u.bindings.Solid := by
  have hsolid := (Bindings.ground_empty (size + goal.varBound)).solid.unifyTriple head
    (goal.shifted size)
  rwa [(ofGoal_eq_some h).2] at hsolid

/-- What a head stands for is an instance of a goal that it has been unified with. -/
theorem exists_fits (h : ofGoal goal head size = some u)
    (hhead : ∀ pair ∈ head.nodes.zip t.nodes, u.bindings.Denotes θ pair.1 pair.2) :
    ∃ σ, goal.Fits σ t := by
  simp only [Triple.nodes, List.zip_cons_cons, List.forall_mem_cons] at hhead
  have hempty : u.bindings.Meaningful θ (Bindings.empty (size + goal.varBound)) := by
    intro i n hi
    have hheld := Bindings.held?_empty (size + goal.varBound) i
    rw [Bindings.held?, hi] at hheld
    cases hheld
  have hfits := Bindings.fits_of_unifyTriple (ofGoal_eq_some h).2 hempty hhead.1 hhead.2.1
    hhead.2.2.1
  exact ⟨fun i => u.bindings.meaning θ (i + size), (Triple.fits_renamed_iff
    (f := fun v => { v with index := v.index + size }) fun _ _ => BEq.rfl).1 hfits⟩

/-! ## The head at the end of a body -/

/-- What the unbound ends of the head's slots have come to. -/
def outcome (u : Unifier) (b : Bindings) : Assignment := fun last =>
  ((u.representative? last u.headSize).bind b.value).getD .any

variable (hu : ofGoal goal head size = some u) (hcarries : u.carries = true)
  (hfills : u.headBindings.Fills b)
include hu hcarries hfills

/-- A variable of the head stands for the value that it has at the end. -/
theorem denotes_of_resolve {v : Var} {k : Node} (h : b.resolve (.var v) = some k) :
    u.bindings.Denotes (u.outcome b) (.var v) k := by
  have hlt : v.index < u.headSize := by
    by_contra hge
    rw [Bindings.resolve_of_length_le] at h
    · cases h
    · rw [hfills.length_eq, length_headBindings]
      exact Nat.le_of_not_lt hge
  have hlength : v.index < u.bindings.length := by
    rw [(fills_of_ofGoal hu).length_eq, Bindings.length_empty, ← (ofGoal_eq_some hu).1]
    exact Nat.lt_of_lt_of_le hlt (Nat.le_add_right _ _)
  obtain ⟨last, hlast⟩ := (fills_of_ofGoal hu).ends (fun i hi => by
    obtain ⟨links, last, hleads⟩ := (Bindings.chained_empty _).ends i hi
    exact ⟨last, hleads.deref_eq⟩) v.index hlength
  cases last with
  | ground n =>
      obtain ⟨k', hk'⟩ := exists_value hcarries hlt hlast
      have hground := (solid_of_ofGoal hu).isGround_of_resolve hk'
      have hkept : b.slot? v.index = some (.ground k') := by
        refine hfills.slot?_eq ?_ nofun
        rw [slot?_headBindings, if_pos hlt, headSlot, hlast]
        simp only
        rw [hk']
      have hsame : b.resolve (.var v) = some k' := by
        rw [Bindings.resolve_var, Bindings.deref_of_held? (by rw [Bindings.held?, hkept])]
        exact (Bindings.resolveTerm_of_ground hground).trans
          (if_neg (Bool.eq_false_iff.1 (Bindings.isNested_of_resolve hk')))
      rw [h] at hsame
      cases hsame
      exact (Bindings.Denotes.var_iff_of_deref_eq (v := v) (w := ⟨"", v.index⟩) rfl).2
        (Bindings.denotes_of_resolve (solid_of_ofGoal hu) hk')
  | unbound last =>
      obtain ⟨j, hj, hfirst, links, hleads⟩ := leads_headBindings_unbound hlt hlast
      have hrep := representative?_eq_some_iff.2 ⟨Nat.lt_of_le_of_lt hj hlt, hfirst⟩
      refine .free hlast ?_
      have hvalue : b.value j = b.resolve (.var v) := by
        rw [Bindings.value, Bindings.resolve_var, Bindings.resolve_var,
          hfills.deref_unbound hleads.deref_eq]
      rw [outcome, hrep, Option.bind_some, hvalue, h]
      exact BEq.rfl

/-- What a body concludes is an instance of the goal. -/
theorem exists_fits_partialInstantiate (h : (b.partialInstantiate head).isGround = true) :
    ∃ σ, goal.Fits σ (b.partialInstantiate head) := by
  obtain ⟨hs, hp, ho⟩ := Triple.isGround_iff.1 h
  have hvalues := fun v k => denotes_of_resolve hu hcarries hfills (v := v) (k := k)
  refine exists_fits (θ := u.outcome b) hu ?_
  change ∀ pair ∈ head.nodes.zip
    [b.partialNode head.subject, b.partialNode head.predicate, b.partialNode head.object], _
  simp only [Triple.nodes, List.zip_cons_cons, List.forall_mem_cons]
  exact ⟨Bindings.denotes_partialNode hvalues hs, Bindings.denotes_partialNode hvalues hp,
    Bindings.denotes_partialNode hvalues ho, fun _ hpair => absurd hpair List.not_mem_nil⟩

end Unifier

/-- A goal that unifies with a fact has it as an instance. -/
theorem Triple.exists_fits_of_covers {goal t : Triple} (ht : t.isGround = true)
    (h : goal.covers t = true) : ∃ σ, goal.Fits σ t := by
  obtain ⟨u, hu⟩ := Option.isSome_iff_exists.1 h
  obtain ⟨hs, hp, ho⟩ := isGround_iff.1 ht
  refine Unifier.exists_fits (θ := fun _ => .any) hu ?_
  simp only [nodes, List.zip_cons_cons, List.forall_mem_cons]
  exact ⟨Bindings.denotes_self hs, Bindings.denotes_self hp, Bindings.denotes_self ho,
    fun _ hpair => absurd hpair List.not_mem_nil⟩

/-- What a view finds is ground. -/
def View.FindsGround {γ : Type} [Graph γ] (view : View γ) : Prop :=
  ∀ p found, view.find p = .ok found → ∀ t ∈ found, t.isGround = true

theorem View.Sound.findsGround {view : View MemoryGraph} (h : view.Sound) : view.FindsGround := by
  intro p found hfound t ht
  rw [View.find_eq] at hfound
  cases hfound
  exact h.isGround (h.mem_visible ht).1

namespace Solver

variable {γ : Type} [Graph γ] {s : Solver} {view : View γ}
  {prove : Triple → Search (OrderedSet Triple)} {r : GoalRule} {st st' : SearchState}
  {goal : Triple} {answers answers' : OrderedSet Triple}

/-! ## Searches -/

/-- No rule forgets anything that the goal asks of its head. -/
def Carries (s : Solver) (goal : Triple) : Prop :=
  ∀ r ∈ s.rules, (Unifier.ofGoal goal r.head r.rule.numVars).all Unifier.carries = true

/-- The calls of the solver bind, and do nothing else to an environment. -/
def OnlyBinds (s : Solver) : Prop :=
  ∀ name b, s.registry.get? name = some b → Procedure.Binds b.body

/-- The table holds ground triples, and the answers so far have the property. -/
structure Yields (Q : Triple → Prop) (answers : OrderedSet Triple) (st : SearchState) : Prop where
  table : ∀ shape t, st.Knows shape t → t.isGround = true
  answers : ∀ t ∈ answers.members, Q t

/-- A way to prove goals with ground answers only. -/
def Grounds (prove : Triple → Search (OrderedSet Triple)) : Prop :=
  ∀ goal st answers st', (∀ shape t, st.Knows shape t → t.isGround = true) →
    prove goal st = .ok answers st' → Yields (fun t => t.isGround = true) answers st'

/-- What has been asked leaves the environment that the call does. -/
theorem bindings_of_ask {call : Call} {d d' : Derived}
    (h : s.ask view r.rule call d st = .ok (some d') st') :
    d'.bindings = (call.holds s.registry (.ofView view r.rule.label d.matched true)
      { bindings := d.bindings, world := st.world }).2.bindings := by
  unfold ask at h
  simp only at h
  split at h
  · cases h
  · obtain ⟨_, _, hget, h⟩ := Search.bind_eq_ok.1 h
    cases hget
    obtain ⟨_, _, hset, h⟩ := Search.bind_eq_ok.1 h
    cases hset
    obtain ⟨hresult, -⟩ := Search.pure_eq_ok.1 h
    split at hresult
    · cases hresult
      rfl
    · cases hresult

/-- To match patterns of the list with facts and to ask calls of it keeps the property of
environments. -/
structure Lasts (s : Solver) (view : View γ) (r : GoalRule) (clauses : List Clause)
    (I : Bindings → Prop) : Prop where
  matched : ∀ {b b' : Bindings} {pattern fact : Triple}, .pattern pattern ∈ clauses →
    fact.isGround = true → b.matching? pattern fact = some b' → I b → I b'
  asked : ∀ {call : Call} {d d' : Derived} {st st' : SearchState}, .call call ∈ clauses →
    s.ask view r.rule call d st = .ok (some d') st' → I d.bindings → I d'.bindings

theorem lasts_fills (hs : s.OnlyBinds) (clauses : List Clause) (b : Bindings) :
    s.Lasts view r clauses b.Fills where
  matched _ _ hmatch hb := hb.trans (.of_matching? hmatch)
  asked {call d _ st _} _ hask hb := by
    refine hb.trans ?_
    rw [bindings_of_ask hask]
    exact .of_evolves (call.evolves_holds (hs call.name)
      (.ofView view r.rule.label d.matched true) { bindings := d.bindings, world := st.world })

/-- What the body adds to the answers is the head under an environment that the one it
started with has become. -/
theorem Grounds.solveBody (hprove : Grounds prove) {I : Bindings → Prop}
    {clauses rest : List Clause} (hI : s.Lasts view r clauses I) (hrest : ∀ c ∈ rest, c ∈ clauses)
    {Q : Triple → Prop} {position : Nat} {d : Derived}
    (hQ : ∀ b, I b → (b.partialInstantiate r.head).isGround = true →
      Q (b.partialInstantiate r.head))
    (hd : I d.bindings) (hstart : Yields Q answers st)
    (h : s.solveBody view prove r position rest d answers st = .ok answers' st') :
    Yields Q answers' st' := by
  induction rest generalizing position d answers st answers' st' with
  | nil =>
      obtain ⟨rfl, rfl⟩ := solveBody_nil_eq_ok h
      refine ⟨hstart.table, fun t ht => ?_⟩
      split at ht
      · rename_i hground
        rcases OrderedSet.mem_insert ht with ht | rfl
        · exact hstart.answers t ht
        · exact hQ _ hd hground
      · exact hstart.answers t ht
  | cons clause rest ih =>
      have hclause := hrest clause List.mem_cons_self
      have hlater := fun c hc => hrest c (List.mem_cons_of_mem clause hc)
      cases clause with
      | pattern pattern =>
          obtain ⟨facts, mid, hfacts, hfold⟩ := solveBody_pattern_eq_ok.1 h
          have hfound := hprove _ _ _ _ hstart.table hfacts
          refine Search.foldlM_keeps hfold (Yields Q) ⟨hfound.table, hstart.answers⟩
            fun fact hfact answers st answers' st' hbefore hone => ?_
          obtain ⟨_, rfl, rfl⟩ | ⟨bindings, hmatch, hnext⟩ := solveFact_eq_ok hone
          · exact hbefore
          · have hbindings := hI.matched hclause (hfound.answers fact hfact) hmatch hd
            exact ih hlater hbindings hbefore hnext
      | call call =>
          obtain ⟨result, mid, hask, hnext⟩ := solveBody_call_eq_ok.1 h
          have hmid : Yields Q answers mid := by
            rw [ask_eq_ok hask]
            exact ⟨hstart.table, hstart.answers⟩
          cases result with
          | none =>
              obtain ⟨rfl, rfl⟩ := Search.pure_eq_ok.1 hnext
              exact hmid
          | some d' => exact ih hlater (hI.asked hclause hask hd) hmid hnext

/-- The triple is ground, and an instance of the goal if no rule forgets what it asks. -/
def Suitable (s : Solver) (goal t : Triple) : Prop :=
  t.isGround = true ∧ (s.Carries goal → ∃ σ, goal.Fits σ t)

theorem Grounds.expand (hprove : Grounds prove) (hs : s.OnlyBinds) (hr : r ∈ s.rules)
    (hstart : Yields (s.Suitable goal) answers st)
    (h : s.expand view prove goal answers r st = .ok answers' st') :
    Yields (s.Suitable goal) answers' st' := by
  obtain ⟨_, rfl, rfl⟩ | ⟨bindings, hunify, hbody⟩ := expand_eq_ok h
  · exact hstart
  · obtain ⟨u, hu, rfl⟩ := Option.map_eq_some_iff.1 hunify
    refine hprove.solveBody (lasts_fills hs _ u.headBindings) (fun _ hc => hc)
      (fun b hfills hground => ⟨hground, fun hcarries => ?_⟩) .refl hstart hbody
    have hone := hcarries r hr
    rw [hu] at hone
    exact Unifier.exists_fits_partialInstantiate hu hone hfills hground

theorem yields_prove (hs : s.OnlyBinds) (hview : view.FindsGround) (depth : Nat)
    (htable : ∀ shape t, st.Knows shape t → t.isGround = true)
    (h : s.prove view depth goal st = .ok answers st') :
    Yields (s.Suitable goal) answers st' := by
  induction depth generalizing goal st answers st' with
  | zero => cases h
  | succ depth ih =>
      obtain ⟨found, hfind, hcases⟩ := prove_succ_eq_ok h
      -- What has been compared with the goal is an instance in any case.
      have hcompared : ∀ {ts : List Triple}, (∀ t ∈ ts, t.isGround = true) →
          ∀ t ∈ ts.filter goal.covers, s.Suitable goal t := by
        intro ts hts t ht
        obtain ⟨ht, hcovers⟩ := List.mem_filter.1 ht
        exact ⟨hts t ht, fun _ => Triple.exists_fits_of_covers (hts t ht) hcovers⟩
      have hstored : Yields (s.Suitable goal) (OrderedSet.ofList (found.filter goal.covers)) st :=
        ⟨htable, fun t ht => hcompared (hview _ _ hfind) t (OrderedSet.mem_ofList ht)⟩
      rcases hcases with ⟨_, rfl, rfl⟩ | ⟨_, mid, hfold, rfl⟩
      · refine ⟨htable, fun t ht => ?_⟩
        rcases OrderedSet.mem_insertAll ht with ht | ht
        · exact hstored.answers t ht
        · exact hcompared
            (fun u hu => htable goal.shape u (List.any_eq_true.2 ⟨u, hu, BEq.rfl⟩)) t ht
      · have hgrounds : Grounds (s.prove view depth) := fun goal st answers st' htable h =>
          ⟨(ih htable h).table, fun t ht => ((ih htable h).answers t ht).1⟩
        have hall : Yields (s.Suitable goal) answers mid :=
          Search.foldlM_keeps hfold (Yields (s.Suitable goal)) ⟨hstored.table, hstored.answers⟩
            fun r hr _ _ _ _ hbefore hone => hgrounds.expand hs hr hbefore hone
        refine ⟨fun shape t hknown => ?_, hall.answers⟩
        rcases SearchState.knows_tabling.1 hknown with hknown | ⟨_, hany⟩
        · exact hall.table shape t hknown
        · obtain ⟨u, hu, hsame⟩ := List.any_eq_true.1 hany
          rw [← Triple.isGround_congr hsame]
          exact (hall.answers u hu).1

/-- Every answer is ground and an instance of the goal, if no rule forgets what the goal asks
of its head. -/
theorem namedInstance_of_solve (hs : s.OnlyBinds) (hview : view.FindsGround)
    (hcarries : s.Carries goal.numbered) {world world' : World} {ts : List Triple}
    (h : s.solve view goal world = (.ok ts, world')) :
    ∀ t ∈ ts, t.isGround = true ∧ goal.HasNamedInstance t := by
  unfold solve at h
  split at h
  · rename_i answers st' hanswers
    obtain ⟨hts, -⟩ := Prod.mk.inj h
    cases hts
    obtain ⟨before, htable, hprove, -⟩ := exists_round hanswers
      (fun st => ∀ shape t, st.Knows shape t → t.isGround = true)
      (fun _ _ hknown => nomatch hknown)
      fun _ _ _ hst hprove => (yields_prove hs hview _ hst hprove).table
    intro t ht
    obtain ⟨hground, hfits⟩ := (yields_prove hs hview _ htable hprove).answers t ht
    obtain ⟨σ, hσ⟩ := hfits hcarries
    exact ⟨hground, Triple.namedInstance_of_fits_numbered hground hσ⟩
  · obtain ⟨hts, -⟩ := Prod.mk.inj h
    cases hts

/-- Where no functor has variables, rules forget nothing. -/
theorem carries_of_shallow (hgoal : goal.Shallow)
    (hrules : ∀ r ∈ s.rules, r.head.Shallow ∧ ∀ i ∈ r.head.indexes, i < r.rule.numVars) :
    s.Carries goal := by
  intro r hr
  obtain ⟨hhead, hslots⟩ := hrules r hr
  rcases Unifier.ofGoal_cases hgoal hhead hslots with ⟨hnone, _⟩ | ⟨b, hsome, hb, _, _⟩
  · rw [hnone]
    rfl
  · rw [hsome]
    refine List.all_eq_true.2 fun i _ => ?_
    split
    · rename_i n hn
      obtain ⟨_, hleads⟩ := Bindings.deref_eq_some_iff.1 hn
      exact Option.isSome_iff_exists.2 ⟨n, hleads.resolve_ground (v := ⟨"", i⟩) hb⟩
    · rfl

/-! ## A rule that wraps and one that passes on -/

/-- What is related by `r` is related by `p` to a functor. -/
def wrapping : Rule :=
  .make none [.pattern ⟨.var ⟨"a", 0⟩, .uri "r", .var ⟨"x", 1⟩⟩]
    [.pattern ⟨.var ⟨"a", 0⟩, .uri "p", .functor "f" [.var ⟨"x", 1⟩]⟩] .backward

/-- What is related by `r` is related by `p` too. -/
def passing : Rule :=
  .make none [.pattern ⟨.var ⟨"a", 0⟩, .uri "r", .var ⟨"x", 1⟩⟩]
    [.pattern ⟨.var ⟨"a", 0⟩, .uri "p", .var ⟨"x", 1⟩⟩] .backward

def ofStandard (rule : Rule) : Solver :=
  (ofRules [rule] Registry.standard defaultDepth).toOption.getD default

/-- What the subject is related to, where this is a functor. -/
def wrapped : Triple := ⟨.uri "s", .uri "p", .functor "f" [.var ⟨"y", 0⟩]⟩

def related : View MemoryGraph := ⟨.plus .empty ⟨.uri "s", .uri "r", .uri "o"⟩, .empty⟩

theorem sound_related : related.Sound where
  base := show (MemoryGraph.plus .empty ⟨.uri "s", .uri "r", .uri "o"⟩).Sound from
    MemoryGraph.sound_empty.plus rfl
  deductions := MemoryGraph.sound_empty

theorem namedInstance_of_solve_wrapping :
    (ofStandard wrapping).Carries wrapped.numbered ∧
      ((ofStandard wrapping).solve related wrapped {}).1.toOption.getD [] ≠ [] ∧
      ∀ t ∈ ((ofStandard wrapping).solve related wrapped {}).1.toOption.getD [],
        t.isGround = true ∧ wrapped.HasNamedInstance t := by
  have hcarries : (ofStandard wrapping).Carries wrapped.numbered := by
    unfold Carries
    decide +kernel
  have hbinds : (ofStandard wrapping).OnlyBinds := fun name b hb =>
    (Registry.binds_standard name b hb).1
  have hanswered : ((ofStandard wrapping).solve related wrapped {}).1 =
      .ok (((ofStandard wrapping).solve related wrapped {}).1.toOption.getD []) :=
    ok_getD_of_isSome (by decide +kernel)
  exact ⟨hcarries, by decide +kernel, namedInstance_of_solve hbinds sound_related.findsGround
    hcarries (Prod.ext hanswered rfl)⟩

/-- The head's environment forgets that the goal asks for a functor. -/
theorem not_namedInstance_of_solve_passing :
    (ofRules [passing] Registry.standard defaultDepth).toOption.isSome = true ∧
      ((ofStandard passing).solve related wrapped {}).1.toOption.isSome = true ∧
      ∃ t ∈ ((ofStandard passing).solve related wrapped {}).1.toOption.getD [],
        (⟨.uri "s", .uri "p", .uri "o"⟩ == t) = true ∧ ¬ wrapped.HasNamedInstance t := by
  have hfound : (((ofStandard passing).solve related wrapped {}).1.toOption.getD []).any
      (fun t => (⟨.uri "s", .uri "p", .uri "o"⟩ : Triple) == t) = true := by
    decide +kernel
  obtain ⟨t, ht, hsame⟩ := List.any_eq_true.1 hfound
  refine ⟨by decide +kernel, by decide +kernel, t, ht, hsame, ?_⟩
  rintro ⟨value, -, hfits⟩
  cases (hfits.congr (fun _ _ => BEq.rfl) (BEq.symm hsame)).object

end Solver

end Entailment
