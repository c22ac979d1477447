import Entailment.Proofs.Backward.Exactness
import Entailment.Proofs.Builtin.Reliance

/-!
# What the depth bound is for

The bound on the depth of proofs only tells when a search gives up.  Two searches with
different bounds go through the same goals, tables and rounds as long as neither gives up,
so a search that has answered answers the same under any larger bound.
-/

namespace Entailment

namespace SearchState

/-- The searches have come to the same point, whatever has been written and whatever the
time is. -/
structure Level (st st' : SearchState) : Prop where
  path : st'.path = st.path
  table : st'.table = st.table
  stopped : st'.world.isStopped = st.world.isStopped

variable {st st' : SearchState}

theorem Level.tabled (h : st.Level st') : st'.tabled = st.tabled := by
  rw [SearchState.tabled, SearchState.tabled, h.table]

theorem Level.answers (h : st.Level st') (shape : Triple) :
    st'.answers shape = st.answers shape := by
  rw [SearchState.answers, SearchState.answers, h.table]

end SearchState

namespace Search

variable {α β : Type}

/-- Whenever the second search succeeds, the first one does with the same result. -/
def Follows (m' m : Search α) : Prop :=
  ∀ st st' a after, SearchState.Level st st' → m st = .ok a after →
    ∃ after', m' st' = .ok a after' ∧ after.Level after'

theorem follows_pure (a : α) : Follows (pure a) (pure a) := by
  intro st st' a' after hlevel h
  obtain ⟨rfl, rfl⟩ := pure_eq_ok.1 h
  exact ⟨st', rfl, hlevel⟩

theorem Follows.bind {m m' : Search α} {f f' : α → Search β} (hm : Follows m' m)
    (hf : ∀ a, Follows (f' a) (f a)) : Follows (m' >>= f') (m >>= f) := by
  intro st st' b after hlevel h
  obtain ⟨a, mid, hfirst, hrest⟩ := bind_eq_ok.1 h
  obtain ⟨mid', hfirst', hmid⟩ := hm _ _ _ _ hlevel hfirst
  obtain ⟨after', hrest', hafter⟩ := hf a _ _ _ _ hmid hrest
  exact ⟨after', bind_eq_ok.2 ⟨a, mid', hfirst', hrest'⟩, hafter⟩

theorem Follows.foldlM {f f' : β → α → Search β} {as : List α}
    (h : ∀ a ∈ as, ∀ b, Follows (f' b a) (f b a)) (b : β) :
    Follows (as.foldlM f' b) (as.foldlM f b) := by
  induction as generalizing b with
  | nil => exact follows_pure b
  | cons a as ih =>
      rw [List.foldlM_cons, List.foldlM_cons]
      exact (h a List.mem_cons_self b).bind
        (ih fun a' ha' => h a' (List.mem_cons_of_mem _ ha'))

end Search

namespace Solver

variable {γ : Type} [Graph γ] {s : Solver} {view : View γ} {r : GoalRule}
  {prove prove' : Triple → Search (OrderedSet Triple)}

/-- The solver with another bound. -/
def withMaxDepth (s : Solver) (depth : Nat) : Solver := { s with maxDepth := depth }

/-- The builtins that the bodies call. -/
def called (s : Solver) : List Builtin :=
  s.rules.flatMap fun r => r.rule.body.filterMap fun clause =>
    clause.call?.bind fun c => s.registry.get? c.name

theorem mem_called {c : Call} {b : Builtin} (hr : r ∈ s.rules) (hc : Clause.call c ∈ r.rule.body)
    (hb : s.registry.get? c.name = some b) : b ∈ s.called :=
  List.mem_flatMap.2 ⟨r, hr, List.mem_filterMap.2 ⟨_, hc, hb⟩⟩

theorem mem_standard_of_mem_called {b : Builtin} (hregistry : s.registry = Registry.standard)
    (hb : b ∈ s.called) : b ∈ Builtin.standard := by
  obtain ⟨r, _, hb⟩ := List.mem_flatMap.1 hb
  obtain ⟨clause, _, hb⟩ := List.mem_filterMap.1 hb
  obtain ⟨c, _, hb⟩ := Option.bind_eq_some_iff.1 hb
  rw [hregistry] at hb
  exact Registry.mem_standard hb

/-- A way to prove goals that succeeds whenever another one does. -/
def Imitates (prove' prove : Triple → Search (OrderedSet Triple)) : Prop :=
  ∀ goal, Search.Follows (prove' goal) (prove goal)

/-- The call is of a builtin that may not be run on demand. -/
def refuses (s : Solver) (call : Call) : Bool :=
  ((s.registry.get? call.name).map fun b => !b.safe).getD false

/-- What a call comes to that is run. -/
def run (s : Solver) (view : View γ) (rule : Rule) (call : Call) (d : Derived) (w : World) :
    Bool × CallState :=
  call.holds s.registry (.ofView view rule.label d.matched true)
    { bindings := d.bindings, world := w }

theorem ask_apply (s : Solver) (view : View γ) (rule : Rule) (call : Call) (d : Derived)
    (st : SearchState) :
    s.ask view rule call d st =
      if s.refuses call then .ok none st
      else .ok
        (if (s.run view rule call d st.world).1 then
          some { d with bindings := (s.run view rule call d st.world).2.bindings }
        else none)
        { st with world := (s.run view rule call d st.world).2.world } := by
  unfold ask refuses
  split <;> rfl

/-- Determinate builtins are run alike wherever the search has come to the same point. -/
theorem run_determinate (view : View γ) {call : Call} (hrefuses : ¬ s.refuses call = true)
    (hcall : ∀ b, s.registry.get? call.name = some b → b.safe = true →
      Procedure.Determinate b.body) (rule : Rule) (d : Derived) {w w' : World}
    (hstopped : w'.isStopped = w.isStopped) :
    (s.run view rule call d w').1 = (s.run view rule call d w).1 ∧
      (s.run view rule call d w').2.bindings = (s.run view rule call d w).2.bindings ∧
      (s.run view rule call d w').2.world.isStopped =
        (s.run view rule call d w).2.world.isStopped := by
  unfold run Call.holds
  unfold refuses at hrefuses
  cases hget : s.registry.get? call.name with
  | none => exact ⟨rfl, rfl, hstopped⟩
  | some b =>
      rw [hget] at hrefuses
      have hsafe : b.safe = true := by
        cases hb : b.safe with
        | true => rfl
        | false => exact absurd (congrArg not hb) hrefuses
      exact hcall b hget hsafe _ _ { bindings := d.bindings, world := w }
        { bindings := d.bindings, world := w' } rfl hstopped

theorem follows_ask {call : Call} (hcall : ∀ b, s.registry.get? call.name = some b →
    b.safe = true → Procedure.Determinate b.body) (depth : Nat) (rule : Rule) (d : Derived) :
    Search.Follows ((s.withMaxDepth depth).ask view rule call d) (s.ask view rule call d) := by
  intro st st' result after hlevel h
  rw [ask_apply] at h ⊢
  by_cases hrefuses : s.refuses call = true
  · rw [if_pos hrefuses] at h
    cases h
    exact ⟨st', if_pos hrefuses, hlevel⟩
  · rw [if_neg hrefuses] at h
    cases h
    obtain ⟨hheld, hbindings, hstopped⟩ := run_determinate view hrefuses hcall rule d
      hlevel.stopped
    refine ⟨{ st' with world := (s.run view rule call d st'.world).2.world }, ?_,
      hlevel.path, hlevel.table, hstopped⟩
    change (if s.refuses call then EStateM.Result.ok none st' else _) = _
    rw [if_neg hrefuses, ← hheld, ← hbindings]
    rfl

/-- The solver with the larger bound goes through a body as the other does. -/
theorem Imitates.solveBody (hprove : Imitates prove' prove) (depth : Nat) (hr : r ∈ s.rules)
    (hcalled : ∀ b ∈ s.called, b.safe = true → Procedure.Determinate b.body) {rest : List Clause}
    (hrest : ∀ clause ∈ rest, clause ∈ r.rule.body) (position : Nat) (d : Derived)
    (answers : OrderedSet Triple) :
    Search.Follows ((s.withMaxDepth depth).solveBody view prove' r position rest d answers)
      (s.solveBody view prove r position rest d answers) := by
  induction rest generalizing position d answers with
  | nil =>
      rw [Solver.solveBody, Solver.solveBody]
      exact Search.follows_pure _
  | cons clause rest ih =>
      have ih := ih fun c hc => hrest c (List.mem_cons_of_mem _ hc)
      cases clause with
      | pattern pattern =>
          rw [Solver.solveBody, Solver.solveBody]
          refine (hprove _).bind fun facts =>
            Search.Follows.foldlM (fun fact _ answers => ?_) answers
          cases d.bindings.matching? pattern fact with
          | none => exact Search.follows_pure _
          | some bindings => exact ih _ _ _
      | call call =>
          rw [Solver.solveBody, Solver.solveBody]
          have hcall : ∀ b, s.registry.get? call.name = some b → b.safe = true →
              Procedure.Determinate b.body :=
            fun b hb => hcalled b (mem_called hr (hrest _ List.mem_cons_self) hb)
          refine (follows_ask hcall depth r.rule d).bind fun result => ?_
          cases result with
          | none => exact Search.follows_pure _
          | some d => exact ih _ _ _

theorem Imitates.expand (hprove : Imitates prove' prove) (depth : Nat) (hr : r ∈ s.rules)
    (hcalled : ∀ b ∈ s.called, b.safe = true → Procedure.Determinate b.body) (goal : Triple)
    (answers : OrderedSet Triple) :
    Search.Follows ((s.withMaxDepth depth).expand view prove' goal answers r)
      (s.expand view prove goal answers r) := by
  unfold Solver.expand
  cases Bindings.unifyHead goal r.head r.rule.numVars with
  | none => exact Search.follows_pure _
  | some bindings => exact hprove.solveBody depth hr hcalled (fun _ h => h) _ _ _

/-- What a goal comes to, also where the search fails. -/
theorem prove_succ_apply (s : Solver) (view : View γ) (below : Nat) (goal : Triple)
    (st : SearchState) :
    s.prove view (below + 1) goal st =
      match view.find (.ofTriple goal) with
      | .error cause => .error (.graph cause) st
      | .ok found =>
        if st.path.contains goal.shape then
          .ok ((OrderedSet.ofList (found.filter goal.covers)).insertAll
            ((st.answers goal.shape).filter goal.covers)) st
        else
          match s.rules.foldlM (s.expand view (s.prove view below) goal)
              (OrderedSet.ofList (found.filter goal.covers))
              { st with path := goal.shape :: st.path } with
          | .ok answers mid =>
            .ok answers ({ mid with path := mid.path.tail }.tabling goal.shape answers.members)
          | .error cause mid => .error cause mid := by
  rw [prove]
  cases view.find (.ofTriple goal) with
  | error cause => rfl
  | ok found =>
      simp only [pure_bind]
      by_cases hpath : st.path.contains goal.shape = true
      · rw [if_pos hpath]
        change (if st.path.contains goal.shape = true then _ else _ : Search _) st = _
        rw [if_pos hpath]
        rfl
      · rw [if_neg hpath]
        change (if st.path.contains goal.shape = true then _ else _ : Search _) st = _
        rw [if_neg hpath]
        change EStateM.bind (s.rules.foldlM _ _) _ { st with path := goal.shape :: st.path } = _
        unfold EStateM.bind
        cases s.rules.foldlM (s.expand view (s.prove view below) goal)
            (OrderedSet.ofList (found.filter goal.covers))
            { st with path := goal.shape :: st.path } <;> rfl

theorem imitates_prove (hcalled : ∀ b ∈ s.called, b.safe = true → Procedure.Determinate b.body)
    (depth : Nat) {below below' : Nat} (hbelow : below ≤ below') :
    Imitates ((s.withMaxDepth depth).prove view below') (s.prove view below) := by
  induction below generalizing below' with
  | zero => exact fun _ _ _ _ _ _ h => nomatch h
  | succ below ih =>
      obtain ⟨below', rfl⟩ : ∃ n, below' = n + 1 := ⟨below' - 1, by omega⟩
      have ih := @ih below' (by omega)
      intro goal st st' answers after hlevel h
      rw [prove_succ_apply, hlevel.path, hlevel.answers]
      obtain ⟨found, hfound, ⟨hpath, rfl, rfl⟩ | ⟨hpath, mid, hfold, rfl⟩⟩ := prove_succ_eq_ok h
      · simp only [hfound, if_pos hpath]
        exact ⟨st', rfl, hlevel⟩
      · obtain ⟨mid', hfold', hmid⟩ := Search.Follows.foldlM
          (fun r hr answers => ih.expand depth hr hcalled goal answers)
          (OrderedSet.ofList (found.filter goal.covers)) { st with path := goal.shape :: st.path }
          { st' with path := goal.shape :: st.path } answers mid
          ⟨rfl, hlevel.table, hlevel.stopped⟩ hfold
        refine ⟨{ mid' with path := mid'.path.tail }.tabling goal.shape answers.members, ?_,
          congrArg List.tail hmid.path, ?_, hmid.stopped⟩
        · simp only [hfound, hpath, Bool.false_eq_true, if_false]
          rw [show (s.withMaxDepth depth).rules = s.rules from rfl, hfold']
        · rw [SearchState.tabling, SearchState.tabling, hmid.table]

theorem repeatUntilStable_succ_apply (s : Solver) (view : View γ) (goal : Triple) (rounds : Nat)
    (st : SearchState) :
    s.repeatUntilStable view goal (rounds + 1) st =
      match s.prove view (s.maxDepth + 1) goal st with
      | .ok answers mid =>
        if mid.tabled = st.tabled then .ok answers mid
        else s.repeatUntilStable view goal rounds mid
      | .error cause mid => .error cause mid := by
  rw [repeatUntilStable]
  change EStateM.bind (s.prove view (s.maxDepth + 1) goal) _ st = _
  unfold EStateM.bind
  cases s.prove view (s.maxDepth + 1) goal st with
  | error cause mid => rfl
  | ok answers mid =>
      change (if mid.tabled = st.tabled then _ else _ : Search _) mid = _
      by_cases hstable : mid.tabled = st.tabled
      · simp only [if_pos hstable]
        rfl
      · simp only [if_neg hstable]

theorem follows_repeatUntilStable
    (hcalled : ∀ b ∈ s.called, b.safe = true → Procedure.Determinate b.body) {depth : Nat}
    (hdepth : s.maxDepth ≤ depth) (goal : Triple) {rounds rounds' : Nat}
    (hrounds : rounds ≤ rounds') :
    Search.Follows ((s.withMaxDepth depth).repeatUntilStable view goal rounds')
      (s.repeatUntilStable view goal rounds) := by
  induction rounds generalizing rounds' with
  | zero => exact fun _ _ _ _ _ h => nomatch h
  | succ rounds ih =>
      obtain ⟨rounds', rfl⟩ : ∃ n, rounds' = n + 1 := ⟨rounds' - 1, by omega⟩
      intro st st' answers after hlevel h
      rw [repeatUntilStable_succ_apply] at h ⊢
      cases hprove : s.prove view (s.maxDepth + 1) goal st with
      | error cause mid =>
          rw [hprove] at h
          cases h
      | ok found mid =>
          obtain ⟨mid', hprove', hmid⟩ := imitates_prove hcalled depth
            (Nat.succ_le_succ hdepth) goal _ _ _ _ hlevel hprove
          rw [hprove] at h
          simp only [show (s.withMaxDepth depth).maxDepth = depth from rfl, hprove', hmid.tabled,
            hlevel.tabled]
          by_cases hstable : mid.tabled = st.tabled
          · simp only [if_pos hstable] at h ⊢
            cases h
            exact ⟨mid', rfl, hmid⟩
          · simp only [if_neg hstable] at h ⊢
            exact ih (Nat.le_of_succ_le_succ hrounds) _ _ _ _ hmid h

/-! ## Answers under a larger bound -/

/-- A search that answers gives the same answers in the same order under any larger bound
and at any other time, and only stops the run if it did so under the smaller one. -/
theorem solve_withMaxDepth
    (hcalled : ∀ b ∈ s.called, b.safe = true → Procedure.Determinate b.body)
    {depth : Nat} (hdepth : s.maxDepth ≤ depth) {goal : Triple} {world world' : World}
    (hworld : world'.isStopped = world.isStopped) {answers : List Triple}
    (h : (s.solve view goal world).1 = .ok answers) :
    ((s.withMaxDepth depth).solve view goal world').1 = .ok answers ∧
      ((s.withMaxDepth depth).solve view goal world').2.isStopped =
        (s.solve view goal world).2.isStopped := by
  unfold solve at h ⊢
  cases hsearch : s.repeatUntilStable view goal.numbered (s.maxDepth + 1) { world } with
  | error cause st =>
      rw [hsearch] at h
      cases h
  | ok found st =>
      rw [hsearch] at h
      cases h
      obtain ⟨st', hsearch', hlevel⟩ := follows_repeatUntilStable hcalled hdepth goal.numbered
        (Nat.succ_le_succ hdepth) { world } { world := world' } _ _ ⟨rfl, rfl, hworld⟩ hsearch
      rw [show (s.withMaxDepth depth).maxDepth = depth from rfl, hsearch']
      exact ⟨rfl, hlevel.stopped⟩

/-- The rules of the lineage for a family in which nobody is an ancestor of their own. -/
def strictLineage : List Rule :=
  [.make (some "chain")
      [.pattern ⟨.var ⟨"x", 0⟩, .uri "ancestor", .var ⟨"y", 1⟩⟩,
        .pattern ⟨.var ⟨"y", 1⟩, .uri "parent", .var ⟨"z", 2⟩⟩,
        .call ⟨"notEqual", [.var ⟨"x", 0⟩, .var ⟨"z", 2⟩]⟩]
      [.pattern ⟨.var ⟨"x", 0⟩, .uri "ancestor", .var ⟨"z", 2⟩⟩] .backward,
    .make (some "start") [.pattern ⟨.var ⟨"x", 0⟩, .uri "parent", .var ⟨"y", 1⟩⟩]
      [.pattern ⟨.var ⟨"x", 0⟩, .uri "ancestor", .var ⟨"y", 1⟩⟩] .backward]

def registrar : Solver := (ofRules strictLineage Registry.standard 3).toOption.getD default

def registered : List Triple := (registrar.solve household descent {}).1.toOption.getD []

/-- Another day. -/
def later : World := ⟨⟨1⟩, {}, "2024-01-01T00:00:00.000Z"⟩

theorem solve_withMaxDepth_lineage :
    (∀ b ∈ registrar.called, b.safe = true → Procedure.Determinate b.body) ∧
      registrar.called.length = 1 ∧ registrar.maxDepth ≤ 7 ∧ registered.length = 2 ∧
      (registrar.solve household descent {}).1 = .ok registered ∧
      ((registrar.withMaxDepth 7).solve household descent later).1 = .ok registered := by
  have hprepared : ofRules strictLineage Registry.standard 3 = .ok registrar :=
    ok_getD_of_isSome (by decide +kernel)
  have hregistry : registrar.registry = Registry.standard := (ofRules_eq_ok hprepared).2.1
  have hcalled : ∀ b ∈ registrar.called, b.safe = true → Procedure.Determinate b.body := by
    have hnow : registrar.called.all (fun b => b.name != "now") = true := by decide +kernel
    intro b hb hsafe
    refine Builtin.determinate_of_mem_standard (mem_standard_of_mem_called hregistry hb) hsafe
      fun h => ?_
    have hname := List.all_eq_true.1 hnow b hb
    rw [h] at hname
    cases hname
  have hanswered : (registrar.solve household descent {}).1 = .ok registered :=
    ok_getD_of_isSome (by decide +kernel)
  have hdepth : registrar.maxDepth ≤ 7 := by decide +kernel
  have hlater : later.isStopped = World.isStopped {} := rfl
  exact ⟨hcalled, by decide +kernel, hdepth, by decide +kernel, hanswered,
    (solve_withMaxDepth hcalled hdepth hlater hanswered).1⟩

end Solver

end Entailment
