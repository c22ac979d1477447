import Entailment.Proofs.Backward.Depth

/-!
# How a search ends

A search is cut off by its depth bound and by its bound on rounds, and by nothing else
unless a lookup fails.  What it keeps of the world is what the calls that are run keep.
-/

namespace Entailment

/-- The call never stops the run, whatever it sees. -/
def Call.Calm (c : Call) (registry : Registry) : Prop :=
  ∀ ctx st, (c.holds registry ctx st).2.world.isStopped = st.world.isStopped

theorem Call.calm_of_builtin {c : Call} {registry : Registry}
    (h : ∀ b, registry.get? c.name = some b → Procedure.Calm b.body) : c.Calm registry := by
  intro ctx st
  unfold holds
  cases hget : registry.get? c.name with
  | none => rfl
  | some b => exact h b hget _ _ _

variable {γ : Type} [Graph γ]

namespace Search

variable {α β : Type} {I : World → Prop} {cause : Failure}

/-- The search fails for one cause only, and keeps what holds of the world. -/
def Ends (I : World → Prop) (cause : Failure) (m : Search α) : Prop :=
  ∀ st, I st.world →
    match m st with
    | .ok _ st' => I st'.world
    | .error failure st' => failure = cause ∧ I st'.world

theorem ends_pure (a : α) : Ends I cause (pure a) := fun _ h => h

theorem Ends.bind {m : Search α} {f : α → Search β} (hm : Ends I cause m)
    (hf : ∀ a, Ends I cause (f a)) : Ends I cause (m >>= f) := by
  intro st hst
  have hfirst := hm st hst
  change match EStateM.bind m f st with
    | .ok _ st' => I st'.world
    | .error failure st' => failure = cause ∧ I st'.world
  unfold EStateM.bind
  cases hresult : m st with
  | ok a mid =>
      rw [hresult] at hfirst
      exact hf a mid hfirst
  | error failure mid =>
      rw [hresult] at hfirst
      exact hfirst

theorem Ends.foldlM {f : β → α → Search β} {as : List α} (h : ∀ a ∈ as, ∀ b, Ends I cause (f b a))
    (b : β) : Ends I cause (as.foldlM f b) := by
  induction as generalizing b with
  | nil => exact ends_pure b
  | cons a as ih =>
      rw [List.foldlM_cons]
      exact (h a List.mem_cons_self b).bind (ih fun a' ha' => h a' (List.mem_cons_of_mem _ ha'))

end Search

namespace Solver

variable {s : Solver} {view : View γ} {r : GoalRule} {I : World → Prop} {cause : Failure}
  {prove : Triple → Search (OrderedSet Triple)}

/-- What holds of the world still holds after every call of a body that is run. -/
def KeptByCalls (s : Solver) (I : World → Prop) : Prop :=
  ∀ r ∈ s.rules, ∀ c, Clause.call c ∈ r.rule.body → s.refuses c = false →
    ∀ ctx st, I st.world → I (c.holds s.registry ctx st).2.world

/-- No call of a body that is run stops the run. -/
def CallsCalm (s : Solver) : Prop :=
  ∀ r ∈ s.rules, ∀ c, Clause.call c ∈ r.rule.body → s.refuses c = false → c.Calm s.registry

theorem ends_ask {call : Call} (hcall : s.refuses call = false →
    ∀ ctx st, I st.world → I (call.holds s.registry ctx st).2.world) (rule : Rule) (d : Derived) :
    Search.Ends I cause (s.ask view rule call d) := by
  intro st hst
  rw [ask_apply]
  by_cases hrefuses : s.refuses call = true
  · rw [if_pos hrefuses]
    exact hst
  · rw [if_neg hrefuses]
    exact hcall (Bool.eq_false_iff.2 hrefuses) _ { bindings := d.bindings, world := st.world } hst

theorem ends_solveBody (hcalls : s.KeptByCalls I)
    (hprove : ∀ goal, Search.Ends I cause (prove goal)) (hr : r ∈ s.rules) {rest : List Clause}
    (hrest : ∀ clause ∈ rest, clause ∈ r.rule.body) (position : Nat) (d : Derived)
    (answers : OrderedSet Triple) :
    Search.Ends I cause (s.solveBody view prove r position rest d answers) := by
  induction rest generalizing position d answers with
  | nil =>
      rw [solveBody]
      exact Search.ends_pure _
  | cons clause rest ih =>
      have ih := ih fun c hc => hrest c (List.mem_cons_of_mem _ hc)
      cases clause with
      | pattern pattern =>
          rw [solveBody]
          refine (hprove _).bind fun facts => Search.Ends.foldlM (fun fact _ answers => ?_) answers
          cases d.bindings.matching? pattern fact with
          | none => exact Search.ends_pure _
          | some bindings => exact ih _ _ _
      | call call =>
          rw [solveBody]
          refine (ends_ask (hcalls r hr call (hrest _ List.mem_cons_self)) r.rule d).bind
            fun result => ?_
          cases result with
          | none => exact Search.ends_pure _
          | some d => exact ih _ _ _

theorem ends_expand (hcalls : s.KeptByCalls I) (hprove : ∀ goal, Search.Ends I cause (prove goal))
    (hr : r ∈ s.rules) (goal : Triple) (answers : OrderedSet Triple) :
    Search.Ends I cause (s.expand view prove goal answers r) := by
  unfold expand
  cases Bindings.unifyHead goal r.head r.rule.numVars with
  | none => exact Search.ends_pure _
  | some bindings => exact ends_solveBody hcalls hprove hr (fun _ h => h) _ _ _

/-- Where lookups do not fail, a goal fails for its depth only. -/
theorem ends_prove (hcalls : s.KeptByCalls I) (hfind : ∀ p, ∃ found, view.find p = .ok found)
    (depth : Nat) (goal : Triple) :
    Search.Ends I (.maxDepthExceeded s.maxDepth) (s.prove view depth goal) := by
  induction depth generalizing goal with
  | zero => exact fun _ h => ⟨rfl, h⟩
  | succ depth ih =>
      intro st hst
      obtain ⟨found, hfound⟩ := hfind (.ofTriple goal)
      have hexpand : ∀ r ∈ s.rules, ∀ answers, Search.Ends I (.maxDepthExceeded s.maxDepth)
          (s.expand view (s.prove view depth) goal answers r) :=
        fun r hr answers => ends_expand hcalls ih hr goal answers
      have hfold := Search.Ends.foldlM hexpand (OrderedSet.ofList (found.filter goal.covers))
        { st with path := goal.shape :: st.path } hst
      simp only [prove_succ_apply, hfound]
      by_cases hpath : st.path.contains goal.shape = true
      · simp only [if_pos hpath]
        exact hst
      · simp only [if_neg hpath]
        cases hresult : s.rules.foldlM (s.expand view (s.prove view depth) goal)
            (OrderedSet.ofList (found.filter goal.covers))
            { st with path := goal.shape :: st.path } with
        | ok answers mid =>
            rw [hresult] at hfold
            exact hfold
        | error failure mid =>
            rw [hresult] at hfold
            exact hfold

theorem ends_repeatUntilStable (hcalls : s.KeptByCalls I)
    (hfind : ∀ p, ∃ found, view.find p = .ok found) (goal : Triple) (rounds : Nat) :
    Search.Ends I (.maxDepthExceeded s.maxDepth) (s.repeatUntilStable view goal rounds) := by
  induction rounds with
  | zero => exact fun _ h => ⟨rfl, h⟩
  | succ rounds ih =>
      intro st hst
      have hprove := ends_prove hcalls hfind (s.maxDepth + 1) goal st hst
      rw [repeatUntilStable_succ_apply]
      cases hresult : s.prove view (s.maxDepth + 1) goal st with
      | error failure mid =>
          rw [hresult] at hprove
          exact hprove
      | ok answers mid =>
          rw [hresult] at hprove
          by_cases hstable : mid.tabled = st.tabled
          · simp only [if_pos hstable]
            exact hprove
          · simp only [if_neg hstable]
            exact ih mid hprove

/-- What a search keeps of the world, and how it can end. -/
theorem solve_ends (hcalls : s.KeptByCalls I) (hfind : ∀ p, ∃ found, view.find p = .ok found)
    (goal : Triple) {world : World} (hworld : I world) :
    ((∃ answers, (s.solve view goal world).1 = .ok answers) ∨
        (s.solve view goal world).1 = .error (.maxDepthExceeded s.maxDepth)) ∧
      I (s.solve view goal world).2 := by
  have hends := ends_repeatUntilStable hcalls hfind goal.numbered (s.maxDepth + 1) { world } hworld
  unfold solve
  cases hresult : s.repeatUntilStable view goal.numbered (s.maxDepth + 1) { world } with
  | ok answers st =>
      rw [hresult] at hends
      exact ⟨.inl ⟨answers.members, rfl⟩, hends⟩
  | error failure st =>
      rw [hresult] at hends
      exact ⟨.inr (congrArg Except.error hends.1), hends.2⟩

end Solver

end Entailment
