import Entailment.Proofs.Forward.Concealment
import Entailment.Proofs.Forward.Imitation

/-!
# Recomputation forgets

An engine that computes its conclusions from nothing comes to what a new engine comes to, be
its history what it may.  What it keeps of its history is the number of its next token, and
the blank nodes that have been drawn are drawn in the world.  So the engine is, once it has
been reset, the delayed image of a new one: it has the same tokens with higher numbers, and
where the new engine draws blank nodes from another supply, the same blank nodes with other
numbers.
-/

namespace Entailment

/-! ## Accounts -/

/-- What can be read off an engine. -/
structure Account where
  base : Except GraphError (List Triple)
  deductions : List Triple
  hidden : List (Node × Nat)
  stats : EngineStats
  tokenCount : Nat
  derivations : List (Triple × List Derivation)
  state : EngineState

namespace Engine

variable {γ : Type}

def account [Graph γ] (e : Engine γ) : Account where
  base := Graph.find e.base .any
  deductions := e.deductions.triples
  hidden := e.hidden.entries
  stats := e.stats
  tokenCount := e.tokenCount
  derivations := e.derivations.entries.entries
  state := e.state

/-- A new engine over the same base, with the same network and the same settings. -/
def afresh (e : Engine γ) (world : World) : Engine γ :=
  { start e.network e.base with
    logging := e.logging
    traceFirings := e.traceFirings
    maxRechecks := e.maxRechecks
    world }

end Engine

def Outcome.account {γ α : Type} [Graph γ] (outcome : Outcome (Engine γ) α) : Outcome Account α :=
  outcome.mapState Engine.account

namespace Delay

variable (δ : Delay)

def account (a : Account) : Account where
  base := δ.access (List.map δ.triple) a.base
  deductions := a.deductions.map δ.triple
  hidden := a.hidden.map (Prod.map δ.node id)
  stats := a.stats
  tokenCount := a.tokenCount
  derivations := a.derivations.map (Prod.map δ.triple (List.map δ.derivation))
  state := a.state

/-- The same outcome, with blank nodes moved up. -/
def outcome {α : Type} : Outcome Account α → Outcome Account α
  | .done value a => .done value (δ.account a)
  | .failed cause a => .failed (δ.failure cause) (δ.account a)
  | .unfinished => .unfinished

/-- The delay of blank nodes from one supply, later drawn from another. -/
def between (used later : Nat) : Delay := ⟨BlankSupply.firstGenerated + used, later - used, 0⟩

/-- There is nothing in the graph, and nothing that will come to it, that tells whether blank
nodes have been moved. -/
def Spares {γ : Type} [Graph γ] (base : γ) : Prop :=
  ∃ Rel : γ → γ → Prop, δ.Bisimulates Rel ∧ Rel base base

variable {δ}

theorem spares_of_no_blanks {γ : Type} [Graph γ] (h : δ.blanks = 0) (base : γ) : δ.Spares base :=
  ⟨Eq, bisimulates_eq h, rfl⟩

theorem spares_of_lt {g : MemoryGraph} (hg : g.Reachable)
    (h : ∀ t ∈ g.triples, ∀ m ∈ t.nodes, ∀ k ∈ m.blanks, k < δ.first) : δ.Spares g := by
  have hstays : ∀ t ∈ g.triples, δ.triple t = t := fun t ht =>
    δ.triple_eq_self_iff.2 fun m hm => δ.node_eq_self_of_lt (h t ht m hm)
  exact ⟨δ.Moves, δ.bisimulates_moves, hg, (graph_eq_self hg hstays).symm⟩

theorem outcome_eq_self (h : δ.blanks = 0) {α : Type} (o : Outcome Account α) :
    δ.outcome o = o := by
  have htriple : δ.triple = id := funext (δ.triple_eq_self h)
  have hnode : δ.node = id := funext (δ.node_eq_self h)
  have hfailure : ∀ cause, δ.failure cause = cause := by
    intro cause
    cases cause with
    | invariant v => cases v <;> simp [failure, violation, htriple]
    | graph cause => exact congrArg Failure.graph (graphError_eq_self h cause)
    | _ => rfl
  have hderivation : δ.derivation = id := by
    funext d
    simp [derivation, htriple]
  have haccess : ∀ result : Except GraphError (List Triple), δ.access id result = result := by
    intro result
    cases result with
    | ok ts => rfl
    | error cause => exact congrArg Except.error (graphError_eq_self h cause)
  have haccount : ∀ a, δ.account a = a := by
    intro a
    simp [account, htriple, hnode, hderivation, haccess]
  cases o with
  | done value a => exact congrArg (Outcome.done value) (haccount a)
  | failed cause a => exact congrArg₂ Outcome.failed (hfailure cause) (haccount a)
  | unfinished => rfl

section Echoing

variable {γ α : Type} [Graph γ] {Rel : γ → γ → Prop} {n : Network} {e : Engine γ} {base : γ}
  {world : World}

theorem account_engine (hRel : δ.Bisimulates Rel) (h : δ.Ties Rel n e base world) :
    (δ.engine e base world).account = δ.account e.account := by
  have hbase : Graph.find base .any = δ.access (List.map δ.triple) (Graph.find e.base .any) := by
    rw [← hRel.find h.related, pattern_any]
  have htokens := δ.tokenCount_engine e base world
  have hdeductions := δ.triples_graph e.deductions
  simp only [Engine.account, account, htokens]
  congr 1

theorem outcome_of_echoes (hRel : δ.Bisimulates Rel) {o o' : Outcome (Engine γ) α}
    (h : o.Echoes δ Rel n o') : o'.account = δ.outcome o.account := by
  cases h with
  | done h => exact congrArg (Outcome.done _) (account_engine hRel h)
  | failed h => exact congrArg (Outcome.failed _) (account_engine hRel h)
  | unfinished => rfl

end Echoing

end Delay

/-! ## New engines -/

namespace Engine

variable {γ : Type} {δ : Delay} {e : Engine γ}

/-- What is left of an engine that has been reset is the image of a new one. -/
theorem reset_eq_engine (hidle : e.state = .idle) (htokens : δ.tokens = e.nextToken)
    (world : World) : e.reset = δ.engine (e.afresh world) e.base e.world := by
  have hmemories : (e.network.rules.map fun _ => TokenMemory.empty).map δ.memory =
      e.network.rules.map fun _ => .empty := List.map_map
  have hnext : δ.token 0 = e.nextToken := (Nat.zero_add _).trans htokens
  simp only [reset, start, afresh, Delay.engine, hmemories, hnext, hidle]
  rfl

variable [Graph γ]

theorem recompute_reset (hopen : e.isClosed = false) (budget : Nat) :
    e.reset.recompute budget = e.recompute budget := by
  have hreset : e.reset.isClosed = e.isClosed := rfl
  have hrestart : Work.restart e.reset = Work.restart e := rfl
  rw [recompute, recompute, operate, operate, hreset, hrestart, hopen]
  rfl

/-- An engine comes to what a new one comes to that draws its blank nodes from a supply that
is behind by the delay. -/
theorem account_recompute (hidle : e.state = .idle) (htokens : δ.tokens = e.nextToken)
    (hn : e.network.Timeless δ) (hspares : δ.Spares e.base) {world : World}
    (hsupply : e.world.supply = δ.supply world.supply) (hready : δ.Ready world.supply)
    (budget : Nat) :
    (e.recompute budget).account = δ.outcome ((e.afresh world).recompute budget).account := by
  obtain ⟨Rel, hRel, hbase⟩ := hspares
  have hties : δ.Ties Rel e.network (e.afresh world) e.base e.world :=
    ⟨rfl, hbase, .empty, hsupply, hready⟩
  have hopen : e.isClosed = false := by
    rw [isClosed, hidle]
    rfl
  rw [← recompute_reset hopen, reset_eq_engine hidle htokens world]
  exact Delay.outcome_of_echoes hRel (echoes_recompute hRel hn hties)

end Engine

/-! ## Histories -/

namespace Engine

variable {γ : Type} [Graph γ] {e e' : Engine γ} {n : Network} {sane : γ → Prop}
  {allowed : Operation → Prop}

theorem state_of_run {budget rechecks : Nat} (h : (e.run budget rechecks).state? = some e') :
    e'.state = .idle ∨ e'.state = .closed := by
  induction budget generalizing rechecks e with
  | zero => cases h
  | succ budget ih =>
      rw [run] at h
      cases hwork : Work.step rechecks e with
      | error cause e₁ =>
          rw [hwork] at h
          cases h
          exact Or.inr rfl
      | ok answer e₁ =>
          rw [hwork] at h
          cases answer with
          | some more => exact ih h
          | none =>
              cases h
              exact Or.inl rfl

/-- Between operations an engine is idle, unless it has closed. -/
theorem Operated.idle_or_closed (h : Operated n sane allowed e) :
    e.state = .idle ∨ e.state = .closed := by
  induction h with
  | start _ => exact Or.inl rfl
  | @performed e e' o budget _ _ hperform ih =>
      rcases Operation.leaves_cases hperform with ⟨_, rfl⟩ | ⟨e₁, rfl⟩ | ⟨_, cause, hrefused⟩ |
        ⟨_, e₁, _, hrun⟩
      · exact ih
      · exact Or.inr rfl
      · rw [(Operation.request_eq_error hrefused).2]
        exact ih
      · exact state_of_run hrun
  | rebased _ _ ih => exact ih
  | logging _ ih => exact ih
  | settings _ ih => exact ih

theorem Operated.idle (h : Operated n sane allowed e) (hopen : e.isClosed = false) :
    e.state = .idle := by
  refine h.idle_or_closed.resolve_right fun hclosed => ?_
  rw [isClosed, hclosed] at hopen
  cases hopen

theorem Operated.network_eq (h : Operated n sane allowed e) (hopen : e.isClosed = false) :
    e.network = n := by
  rcases h.tallied (T := .hiding default) with htallied | hsilent
  · exact htallied.network_eq
  · rw [hsilent.isClosed] at hopen
    cases hopen

end Engine

/-! ## What rules may say -/

/-- All builtins that the rules call have a property. -/
def Registry.Meets (registry : Registry) (rules : List Rule) (P : Builtin → Prop) : Prop :=
  ∀ rule ∈ rules, ∀ c, Clause.call c ∈ rule.clauses → ∀ b, registry.get? c.name = some b → P b

/-- The rules name no blank node from a number on. -/
def NameBelow (bound : Nat) (rules : List Rule) : Prop :=
  ∀ rule ∈ rules, ∀ clause ∈ rule.clauses, ∀ m ∈ clause.nodes, ∀ k ∈ m.blanks, k < bound

theorem Network.timeless_of_meets {rules : List Rule} {registry : Registry} {n : Network}
    {δ : Delay} (hcompile : Network.compile rules registry = .ok n)
    (hbuiltins : registry.Meets rules (Builtin.Timeless δ))
    (hnames : δ.blanks = 0 ∨ NameBelow δ.first rules) : n.Timeless δ := by
  refine Network.timeless_of_compile hcompile fun rule hrule clause hclause => ?_
  have hstays : ∀ m ∈ clause.nodes, δ.node m = m := by
    intro m hm
    rcases hnames with hnone | hbelow
    · exact δ.node_eq_self hnone m
    · exact δ.node_eq_self_of_lt (hbelow rule hrule clause hclause m hm)
  cases clause with
  | pattern t => exact δ.triple_eq_self_iff.2 hstays
  | call c => exact ⟨hstays, fun b hb => hbuiltins rule hrule c hclause b hb⟩

namespace Registry

variable {rules : List Rule}

theorem meets_of_all {P : Builtin → Prop} [DecidablePred P]
    (h : (rules.all fun r => r.clauses.all fun clause =>
      (clause.call?.bind fun c => standard.get? c.name).all fun b => P b) = true) :
    standard.Meets rules P := by
  intro rule hrule c hc b hb
  have hclause := List.all_eq_true.1 (List.all_eq_true.1 h rule hrule) _ hc
  simp only [Clause.call?, Option.bind_some, hb, Option.all_some] at hclause
  exact of_decide_eq_true hclause

theorem meets_deterministic (h : standard.Meets rules fun b => b.name ≠ "now") :
    standard.Meets rules Builtin.Deterministic := fun rule hrule c hc b hb =>
  Builtin.deterministic_of_mem_standard (mem_standard hb) (h rule hrule c hc b hb)

theorem meets_timeless
    (h : standard.Meets rules fun b => b.name ≠ "now" ∧ b.name ≠ "makeSkolem") :
    standard.Meets rules fun b => ∀ δ, b.Timeless δ := by
  intro rule hrule c hc b hb δ
  obtain ⟨hnow, hskolem⟩ := h rule hrule c hc b hb
  exact Builtin.timeless_of_mem_standard (mem_standard hb) hnow (Or.inr hskolem)

end Registry

/-! ## Forgetting -/

namespace Engine

variable {γ : Type} [Graph γ] {e : Engine γ} {n : Network} {sane : γ → Prop}
  {allowed : Operation → Prop} {rules : List Rule} {registry : Registry}

/-- Where the new engine draws from the same supply, it comes to exactly the same. -/
theorem account_recompute_of_supply_eq (hcompile : Network.compile rules registry = .ok n)
    (hnetwork : e.network = n) (hidle : e.state = .idle) {w : World}
    (hsupply : w.supply = e.world.supply)
    (hbuiltins : registry.Meets rules Builtin.Deterministic) (budget : Nat) :
    (e.recompute budget).account = ((e.afresh w).recompute budget).account := by
  have hn : e.network.Timeless ⟨0, 0, e.nextToken⟩ := by
    rw [hnetwork]
    exact Network.timeless_of_meets hcompile
      (fun rule hrule c hc b hb => (hbuiltins rule hrule c hc b hb).timeless rfl rfl) (Or.inl rfl)
  have hspares : (⟨0, 0, e.nextToken⟩ : Delay).Spares e.base := Delay.spares_of_no_blanks rfl e.base
  rw [account_recompute hidle rfl hn hspares hsupply.symm (Nat.zero_le _) budget,
    Delay.outcome_eq_self rfl]

theorem account_afresh (hcompile : Network.compile rules registry = .ok n)
    (hnetwork : e.network = n) {w w' : World} (hused : w.supply.used ≤ w'.supply.used)
    (hbuiltins : registry.Meets rules fun b => ∀ δ, b.Timeless δ)
    (hnames : NameBelow (BlankSupply.firstGenerated + w.supply.used) rules)
    (hspares : (Delay.between w.supply.used w'.supply.used).Spares e.base) (budget : Nat) :
    ((e.afresh w').recompute budget).account =
      (Delay.between w.supply.used w'.supply.used).outcome
        ((e.afresh w).recompute budget).account := by
  have hn : e.network.Timeless (Delay.between w.supply.used w'.supply.used) := by
    rw [hnetwork]
    exact Network.timeless_of_meets hcompile
      (fun rule hrule c hc b hb => hbuiltins rule hrule c hc b hb _) (Or.inr hnames)
  have hsupply : w'.supply = (Delay.between w.supply.used w'.supply.used).supply w.supply := by
    rw [Delay.supply, Delay.between, Nat.add_sub_cancel' hused]
  exact account_recompute (e := e.afresh w') rfl rfl hn hspares hsupply (Nat.le_refl _) budget

/-- An engine that is not closed and computes its conclusions from nothing comes to what a new
engine comes to.  If both draw from the same supply, that is exactly the same, whatever the
base; if one supply is ahead of the other, it is the same up to the numbers of the blank nodes
that are drawn. -/
theorem recompute_forgets (hcompile : Network.compile rules registry = .ok n)
    (he : e.Operated n sane allowed) (hopen : e.isClosed = false) (w : World) (budget : Nat) :
    (w.supply = e.world.supply → registry.Meets rules Builtin.Deterministic →
      ((e.afresh w).recompute budget).account = (e.recompute budget).account) ∧
    (registry.Meets rules (fun b => ∀ δ, b.Timeless δ) →
      (e.world.supply.used ≤ w.supply.used →
        NameBelow (BlankSupply.firstGenerated + e.world.supply.used) rules →
        (Delay.between e.world.supply.used w.supply.used).Spares e.base →
        ((e.afresh w).recompute budget).account =
          (Delay.between e.world.supply.used w.supply.used).outcome
            (e.recompute budget).account) ∧
      (w.supply.used ≤ e.world.supply.used →
        NameBelow (BlankSupply.firstGenerated + w.supply.used) rules →
        (Delay.between w.supply.used e.world.supply.used).Spares e.base →
        (e.recompute budget).account =
          (Delay.between w.supply.used e.world.supply.used).outcome
            ((e.afresh w).recompute budget).account)) := by
  have hnetwork := he.network_eq hopen
  have hidle := he.idle hopen
  refine ⟨fun hsupply hbuiltins =>
    (account_recompute_of_supply_eq hcompile hnetwork hidle hsupply hbuiltins budget).symm,
    fun hbuiltins => ?_⟩
  -- A new engine that draws where the old one does stands between the two.
  have hsame := account_recompute_of_supply_eq hcompile hnetwork hidle (w := e.world) rfl
    (fun rule hrule c hc b hb => (hbuiltins rule hrule c hc b hb ⟨0, 0, 0⟩).deterministic) budget
  rw [hsame]
  exact ⟨fun hle hnames hspares =>
      account_afresh hcompile hnetwork hle hbuiltins hnames hspares budget,
    fun hle hnames hspares =>
      account_afresh hcompile hnetwork hle hbuiltins hnames hspares budget⟩

/-! ### Keys that are drawn -/

/-- Whoever owns something and is not banned has a key. -/
def keying : Rule :=
  .make none [.pattern ⟨.var ⟨"x", 0⟩, .uri "owns", .var ⟨"y", 1⟩⟩,
      .call ⟨"noValue", [.var ⟨"x", 0⟩, .uri "banned"]⟩]
    [.pattern ⟨.var ⟨"x", 0⟩, .uri "key", .var ⟨"k", 2⟩⟩] .forward

/-- A report is taken out again. -/
def clearing : Rule :=
  .make none [.pattern ⟨.var ⟨"x", 0⟩, .uri "reports", .var ⟨"y", 1⟩⟩]
    [.call ⟨"remove", [.integer 0]⟩] .forward

def keyingNetwork : Network :=
  ((Network.compile [keying, clearing] Registry.standard).toOption).getD default

def belonging (owner thing : String) : Triple := ⟨.uri owner, .uri "owns", .uri thing⟩

def keyed : Engine MemoryGraph :=
  ((Operation.add (belonging "a" "b")).perform 40
    (start keyingNetwork .empty)).state?.getD (start keyingNetwork .empty)

/-- The engine has drawn a key, and has stored and dropped the token of a report. -/
def reported : Engine MemoryGraph :=
  ((Operation.add ⟨.uri "a", .uri "reports", .uri "b"⟩).perform 40 keyed).state?.getD keyed

/-- Then it was given another base. -/
def rebased : Engine MemoryGraph :=
  { reported with base := MemoryGraph.empty.plus (belonging "c" "d") }

theorem recompute_forgets_rebased :
    rebased.isClosed = false ∧ rebased.nextToken = 2 ∧ rebased.world.supply.used = 1 ∧
      (rebased.recompute 40).cause? = none ∧ (rebased.recompute 40).state?.isSome ∧
      ((rebased.afresh rebased.world).recompute 40).account = (rebased.recompute 40).account ∧
      (rebased.recompute 40).account =
        (Delay.between 0 1).outcome ((rebased.afresh {}).recompute 40).account ∧
      ((rebased.afresh ⟨⟨3⟩, {}, ""⟩).recompute 40).account =
        (Delay.between 1 3).outcome (rebased.recompute 40).account := by
  have hcompile : Network.compile [keying, clearing] Registry.standard = .ok keyingNetwork :=
    ok_getD_of_isSome (by decide +kernel)
  have hkeyed : Operated keyingNetwork MemoryGraph.Reachable (fun _ => True) keyed :=
    .performed (.start .empty) trivial (Outcome.state?_eq_getD (by decide +kernel) _)
  have hreported : Operated keyingNetwork MemoryGraph.Reachable (fun _ => True) reported :=
    .performed hkeyed trivial (Outcome.state?_eq_getD (by decide +kernel) _)
  have hground : (belonging "c" "d").isGround = true := by decide
  have hbase : rebased.base.Reachable := .add .empty (MemoryGraph.sound_empty.add_eq hground)
  have hrebased : Operated keyingNetwork MemoryGraph.Reachable (fun _ => True) rebased :=
    .rebased hreported hbase
  have hopen : rebased.isClosed = false := by decide +kernel
  have hused : rebased.world.supply.used = 1 := by decide +kernel
  have hcalls : Registry.standard.Meets [keying, clearing]
      fun b => b.name ≠ "now" ∧ b.name ≠ "makeSkolem" := Registry.meets_of_all (by decide +kernel)
  have hdeterministic := Registry.meets_deterministic fun rule hrule c hc b hb =>
    (hcalls rule hrule c hc b hb).1
  have hnames : ∀ used, NameBelow (BlankSupply.firstGenerated + used) [keying, clearing] := by
    have hnone : NameBelow 0 [keying, clearing] := by
      unfold NameBelow
      decide +kernel
    exact fun used rule hrule clause hclause m hm k hk =>
      absurd (hnone rule hrule clause hclause m hm k hk) (Nat.not_lt_zero k)
  have hspares : ∀ used later, (Delay.between used later).Spares rebased.base := by
    have hnone : ∀ t ∈ rebased.base.triples, ∀ m ∈ t.nodes, m.blanks = [] := by decide +kernel
    refine fun used later => Delay.spares_of_lt hbase fun t ht m hm k hk => ?_
    rw [hnone t ht m hm] at hk
    cases hk
  have hbehind := ((recompute_forgets hcompile hrebased hopen {} 40).2
    (Registry.meets_timeless hcalls)).2
  have hahead := ((recompute_forgets hcompile hrebased hopen ⟨⟨3⟩, {}, ""⟩ 40).2
    (Registry.meets_timeless hcalls)).1
  rw [hused] at hbehind hahead
  exact ⟨hopen, by decide +kernel, hused, by decide +kernel, by decide +kernel,
    (recompute_forgets hcompile hrebased hopen rebased.world 40).1 rfl hdeterministic,
    hbehind (by decide) (hnames _) (hspares _ _), hahead (by decide) (hnames _) (hspares _ _)⟩

end Engine

end Entailment
