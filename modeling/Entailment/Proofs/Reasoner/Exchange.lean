import Entailment.Backward.Solver
import Entailment.Forward.Run

/-!
# Exchanging what unsafe builtins do

Two registries know the same builtins, and the safe ones do the same.  What an unsafe one
does may be exchanged for anything else in some contexts.  The exchange cannot be noticed
when rules are checked and compiled, when goals are solved, nor when a call is asked
without effect, because no unsafe builtin is run there at all.
-/

namespace Entailment

/-- Builtins that look the same, and that do the same if the first is safe or the context
is one of these. -/
structure Builtin.SameIn (asked : CallContext → Prop) (b b' : Builtin) : Prop where
  name_eq : b'.name = b.name
  arity_eq : b'.arity = b.arity
  safe_eq : b'.safe = b.safe
  monotonic_eq : b'.monotonic = b.monotonic
  body_eq : ∀ ctx, b.safe = true ∨ asked ctx → b'.body ctx = b.body ctx
  head_eq : ∀ ctx, b.safe = true ∨ asked ctx → b'.head ctx = b.head ctx

/-- Registries that know the same builtins, except for what the unsafe ones do in contexts
other than these. -/
def Registry.SameIn (asked : CallContext → Prop) (r r' : Registry) : Prop :=
  ∀ name, (r.get? name = none ∧ r'.get? name = none) ∨
    ∃ b b', r.get? name = some b ∧ r'.get? name = some b' ∧ b.SameIn asked b'

section

variable {asked : CallContext → Prop} {r r' : Registry} {ctx : CallContext}

/-! ## Calls -/

namespace Call

/-- A call is the same where the exchange may not be noticed. -/
theorem holds_eq_of_sameIn (h : r.SameIn asked r') (hctx : asked ctx) (c : Call)
    (st : CallState) : c.holds r' ctx st = c.holds r ctx st := by
  rcases h c.name with ⟨hr, hr'⟩ | ⟨b, b', hr, hr', hb⟩
  · rw [holds, holds, hr, hr']
  · simp only [holds, hr, hr', hb.body_eq ctx (.inr hctx)]

theorem act_eq_of_sameIn (h : r.SameIn asked r') (hctx : asked ctx) (c : Call)
    (st : CallState) : c.act r' ctx st = c.act r ctx st := by
  rcases h c.name with ⟨hr, hr'⟩ | ⟨b, b', hr, hr', hb⟩
  · rw [act, act, hr, hr']
  · simp only [act, hr, hr', hb.head_eq ctx (.inr hctx)]

/-- A call asked speculatively is the same in every context. -/
theorem holdsSpeculatively_eq_of_sameIn (h : r.SameIn asked r') (c : Call) (st : CallState) :
    c.holdsSpeculatively r' ctx st = c.holdsSpeculatively r ctx st := by
  rcases h c.name with ⟨hr, hr'⟩ | ⟨b, b', hr, hr', hb⟩
  · rw [holdsSpeculatively, holdsSpeculatively, hr, hr']
  · simp only [holdsSpeculatively, holds, hr, hr', hb.safe_eq]
    split
    next hsafe => rw [hb.body_eq ctx (.inl hsafe)]
    next => rfl

end Call

/-! ## Rules -/

theorem Rule.conclude_eq_of_sameIn (h : r.SameIn asked r') (hctx : asked ctx) (rule : Rule)
    (st : CallState) : rule.conclude r' ctx st = rule.conclude r ctx st := by
  have hclause : Clause.carryOut r' ctx = Clause.carryOut r ctx := by
    funext drawn clause
    cases clause with
    | pattern t => rfl
    | call c => exact congrArg (drawn.1, ·) (c.act_eq_of_sameIn h hctx drawn.2)
  rw [conclude, conclude, hclause]

theorem CompiledRule.evaluate_eq_of_sameIn (h : r.SameIn asked r') (hctx : asked ctx)
    (c : CompiledRule) (st : CallState) : c.evaluate r' ctx st = c.evaluate r ctx st := by
  have hask : (fun (call : Call) st => call.holds r' ctx st) = fun call st => call.holds r ctx st :=
    funext fun call => funext fun st => call.holds_eq_of_sameIn h hctx st
  have hconclude : c.rule.conclude r' ctx = c.rule.conclude r ctx :=
    funext fun st => c.rule.conclude_eq_of_sameIn h hctx st
  rw [evaluate, evaluate, hask, hconclude]

/-! ## Acceptance -/

theorem Rule.validate_eq_of_sameIn (h : r.SameIn asked r') (rule : Rule) :
    rule.validate r' = rule.validate r := by
  have hbody : rule.checkBodyCall r' = rule.checkBodyCall r := by
    funext c
    rcases h c.name with ⟨hr, hr'⟩ | ⟨b, b', hr, hr', hb⟩
    · rw [checkBodyCall, checkBodyCall, hr, hr']
    · simp only [checkBodyCall, checkArity, hr, hr', hb.arity_eq, hb.safe_eq]
  have hhead : rule.checkHeadCall r' = rule.checkHeadCall r := by
    funext c
    rcases h c.name with ⟨hr, hr'⟩ | ⟨b, b', hr, hr', hb⟩
    · rw [checkHeadCall, checkHeadCall, hr, hr']
    · simp only [checkHeadCall, checkArity, hr, hr', hb.arity_eq]
  rw [validate, validate, hbody, hhead]

theorem CompiledRule.ofRule_eq_of_sameIn (h : r.SameIn asked r') (rule : Rule) :
    ofRule r' rule = ofRule r rule := by
  have hsame : isNonMonotonic r' = isNonMonotonic r := by
    funext c
    rcases h c.name with ⟨hr, hr'⟩ | ⟨b, b', hr, hr', hb⟩
    · rw [isNonMonotonic, isNonMonotonic, hr, hr']
    · simp only [isNonMonotonic, hr, hr', hb.monotonic_eq]
  rw [ofRule, ofRule, hsame]

end

namespace Network

variable {asked : CallContext → Prop} {r r' : Registry} {n : Network}

def withRegistry (r : Registry) (n : Network) : Network := { n with registry := r }

theorem addPattern_withRegistry (n : Network) (p : SharedPattern) :
    (n.withRegistry r).addPattern p = (n.addPattern p).withRegistry r := by
  simp only [addPattern, withRegistry]
  split <;> rfl

theorem registry_addPattern (n : Network) (p : SharedPattern) :
    (n.addPattern p).registry = n.registry := by
  simp only [addPattern]
  split <;> rfl

theorem subscribe_withRegistry (n : Network) (pattern : Triple) (s : Subscriber) :
    (n.withRegistry r).subscribe pattern s = (n.subscribe pattern s).withRegistry r := by
  have hplace : ((n.withRegistry r).patterns.findIdx? fun p => p.shape == pattern.shape) =
      n.patterns.findIdx? fun p => p.shape == pattern.shape := rfl
  unfold subscribe
  rw [hplace]
  cases n.patterns.findIdx? fun p => p.shape == pattern.shape with
  | some place => rfl
  | none => exact addPattern_withRegistry n _

theorem registry_subscribe (n : Network) (pattern : Triple) (s : Subscriber) :
    (n.subscribe pattern s).registry = n.registry := by
  unfold subscribe
  cases n.patterns.findIdx? fun p => p.shape == pattern.shape with
  | some place => rfl
  | none => exact registry_addPattern n _

/-- The patterns of a rule, subscribed one after the other. -/
theorem foldl_subscribe_withRegistry (place : Nat) (patterns : List ((Nat × Triple) × Nat))
    (n : Network) :
    patterns.foldl (fun n ((_, pattern), level) => n.subscribe pattern ⟨place, level⟩)
        (n.withRegistry r) =
      (patterns.foldl (fun n ((_, pattern), level) => n.subscribe pattern ⟨place, level⟩)
        n).withRegistry r := by
  induction patterns generalizing n with
  | nil => rfl
  | cons p rest ih =>
      obtain ⟨⟨_, pattern⟩, level⟩ := p
      simp only [List.foldl_cons]
      rw [subscribe_withRegistry, ih]

theorem registry_foldl_subscribe (place : Nat) (patterns : List ((Nat × Triple) × Nat))
    (n : Network) :
    (patterns.foldl (fun n ((_, pattern), level) => n.subscribe pattern ⟨place, level⟩)
      n).registry = n.registry := by
  induction patterns generalizing n with
  | nil => rfl
  | cons p rest ih =>
      obtain ⟨⟨_, pattern⟩, level⟩ := p
      simp only [List.foldl_cons]
      rw [ih, registry_subscribe]

theorem addRule_withRegistry (h : r.SameIn asked r') (hn : n.registry = r) (rule : Rule) :
    (n.withRegistry r').addRule rule = (n.addRule rule).map (withRegistry r') := by
  have hvalid : rule.validate (n.withRegistry r').registry = rule.validate n.registry := by
    rw [hn]
    exact rule.validate_eq_of_sameIn h
  have hcompiled : CompiledRule.ofRule (n.withRegistry r').registry rule =
      CompiledRule.ofRule n.registry rule := by
    rw [hn]
    exact CompiledRule.ofRule_eq_of_sameIn h rule
  unfold addRule
  cases rule.isBackward with
  | true => rfl
  | false =>
      rw [hvalid, hcompiled]
      cases rule.validate n.registry with
      | error cause => rfl
      | ok _ =>
          exact congrArg Except.ok (foldl_subscribe_withRegistry n.rules.length
            (CompiledRule.ofRule n.registry rule).patterns.zipIdx
            { n with rules := n.rules ++ [CompiledRule.ofRule n.registry rule] })

theorem registry_addRule {n' : Network} {rule : Rule} (h : n.addRule rule = .ok n') :
    n'.registry = n.registry := by
  unfold addRule at h
  cases hbackward : rule.isBackward with
  | true =>
      rw [hbackward] at h
      cases h
  | false =>
      rw [hbackward] at h
      cases hvalid : rule.validate n.registry with
      | error cause =>
          rw [hvalid] at h
          cases h
      | ok _ =>
          rw [hvalid] at h
          cases h
          exact registry_foldl_subscribe _ _ _

theorem foldlM_addRule_withRegistry (h : r.SameIn asked r') (hn : n.registry = r)
    (rules : List Rule) :
    rules.foldlM addRule (n.withRegistry r') = (rules.foldlM addRule n).map (withRegistry r') := by
  induction rules generalizing n with
  | nil => rfl
  | cons rule rules ih =>
      rw [List.foldlM_cons, List.foldlM_cons, addRule_withRegistry h hn]
      cases hrule : n.addRule rule with
      | error cause => rfl
      | ok next => exact ih ((registry_addRule hrule).trans hn)

/-- The same rules are accepted, and compiled to the same network. -/
theorem compile_of_sameIn (h : r.SameIn asked r') (rules : List Rule) :
    compile rules r' = (compile rules r).map (withRegistry r') :=
  foldlM_addRule_withRegistry (n := { registry := r }) h rfl rules

end Network

/-! ## Search -/

namespace Solver

variable {asked : CallContext → Prop} {r r' : Registry} {s : Solver}
variable {γ : Type} [Graph γ] {view : View γ}

def withRegistry (r : Registry) (s : Solver) : Solver := { s with registry := r }

theorem ofRule_of_sameIn (h : r.SameIn asked r') (rule : Rule) :
    GoalRule.ofRule r' rule = GoalRule.ofRule r rule := by
  rw [GoalRule.ofRule, GoalRule.ofRule, rule.validate_eq_of_sameIn h]

/-- The same rules are accepted. -/
theorem ofRules_of_sameIn (h : r.SameIn asked r') (rules : List Rule) (maxDepth : Nat) :
    ofRules rules r' maxDepth = (ofRules rules r maxDepth).map (withRegistry r') := by
  have hrules : GoalRule.ofRule r' = GoalRule.ofRule r := funext (ofRule_of_sameIn h)
  rw [ofRules, ofRules, hrules]
  cases rules.mapM (GoalRule.ofRule r) with
  | error cause => rfl
  | ok compiled => rfl

/-- A call is refused if it is not safe, whatever it would do. -/
theorem ask_withRegistry (h : r.SameIn asked r') (hs : s.registry = r) (rule : Rule) (call : Call)
    (d : Derived) : (s.withRegistry r').ask view rule call d = s.ask view rule call d := by
  subst hs
  have hregistry : (s.withRegistry r').registry = r' := rfl
  unfold ask
  rw [hregistry]
  rcases h call.name with ⟨hr, hr'⟩ | ⟨b, b', hr, hr', hb⟩
  · simp only [Call.holds, hr, hr']
  · simp only [Call.holds, hr, hr', hb.safe_eq, Option.map_some, Option.getD_some]
    cases hsafe : b.safe with
    | false => rfl
    | true => simp only [hb.body_eq _ (.inl hsafe)]

theorem solveBody_withRegistry (h : r.SameIn asked r') (hs : s.registry = r)
    (prove : Triple → Search (OrderedSet Triple)) (g : GoalRule) (position : Nat)
    (rest : List Clause) (d : Derived) (answers : OrderedSet Triple) :
    (s.withRegistry r').solveBody view prove g position rest d answers =
      s.solveBody view prove g position rest d answers := by
  induction rest generalizing position d answers with
  | nil => rfl
  | cons clause rest ih =>
      cases clause with
      | pattern pattern => simp only [solveBody, ih]
      | call call => simp only [solveBody, ask_withRegistry h hs, ih]

theorem expand_withRegistry (h : r.SameIn asked r') (hs : s.registry = r)
    (prove : Triple → Search (OrderedSet Triple)) (goal : Triple) :
    (s.withRegistry r').expand view prove goal = s.expand view prove goal := by
  funext answers g
  simp only [expand, solveBody_withRegistry h hs]

theorem prove_withRegistry (h : r.SameIn asked r') (hs : s.registry = r) (depth : Nat) :
    (s.withRegistry r').prove view depth = s.prove view depth := by
  funext goal
  induction depth generalizing goal with
  | zero => rfl
  | succ depth ih =>
      have hprove : (s.withRegistry r').prove view depth = s.prove view depth := funext ih
      simp only [prove, hprove, expand_withRegistry h hs]
      rfl

theorem repeatUntilStable_withRegistry (h : r.SameIn asked r') (hs : s.registry = r)
    (goal : Triple) (rounds : Nat) :
    (s.withRegistry r').repeatUntilStable view goal rounds =
      s.repeatUntilStable view goal rounds := by
  induction rounds with
  | zero => rfl
  | succ rounds ih =>
      simp only [repeatUntilStable, prove_withRegistry h hs, ih]
      rfl

/-- What unsafe builtins do makes no difference to the answers to a goal. -/
theorem solve_withRegistry (h : r.SameIn asked r') (hs : s.registry = r) (goal : Triple)
    (world : World) : (s.withRegistry r').solve view goal world = s.solve view goal world := by
  simp only [solve, repeatUntilStable_withRegistry h hs]
  rfl

end Solver

end Entailment
