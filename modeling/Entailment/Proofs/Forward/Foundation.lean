import Entailment.Proofs.Builtin.Keeping
import Entailment.Proofs.Forward.Operation
import Entailment.Proofs.Forward.Request

/-!
# No conclusion without a foundation

Whatever sequence of operations an engine has been through, every triple in view has a
finite proof from the base, from committed conclusions and from rules without patterns,
each step of which is a firing that stands and whose matched triples are in view.  This
holds for rules with negation, with heads that remove and hide, and with fresh blank
nodes.  It needs that nothing is dropped silently, and that no pattern after the first
of its rule has a functor with variables for its predicate: such a pattern finds facts
by search, but is not among the subscribers of a fact that goes.
-/

namespace Entailment

theorem ok_getD_of_isSome {ε α : Type} {result : Except ε α} {a : α}
    (h : result.toOption.isSome = true) : result = .ok (result.toOption.getD a) := by
  cases result with
  | ok _ => rfl
  | error _ => cases h

/-! ## Tame rules -/

namespace Network

theorem plain_of_all {n : Network}
    (h : (n.rules.all fun c => (c.patterns.drop 1).all fun p => p.2.hasPlainPredicate) = true) :
    n.Plain := by
  intro r c level p hc hp
  rw [List.all_eq_true] at h
  have hpatterns := h c (List.mem_of_getElem? hc)
  rw [List.all_eq_true] at hpatterns
  apply hpatterns p
  apply List.mem_of_getElem? (i := level)
  rw [List.getElem?_drop, Nat.add_comm]
  exact hp

/-- Every rule of a network has been compiled from a given one. -/
theorem exists_rule_of_rule? {rules : List Rule} {n : Network} {registry : Registry}
    (hn : compile rules registry = .ok n) {r : Nat} {c : CompiledRule} (hc : n.rule? r = some c) :
    ∃ rule ∈ rules, c = CompiledRule.ofRule registry rule := by
  obtain ⟨_, _, hrules⟩ := compile_eq_ok hn
  rw [rule?, hrules, List.getElem?_map] at hc
  obtain ⟨rule, hrule, rfl⟩ := Option.map_eq_some_iff.1 hc
  exact ⟨rule, List.mem_of_getElem? hrule, rfl⟩

theorem tame_of_keeps {n : Network}
    (hbody : ∀ name b, n.registry.get? name = some b → Procedure.Keeps b.body)
    (hhead : ∀ r c call b, n.rule? r = some c → Clause.call call ∈ c.rule.head →
      n.registry.get? call.name = some b → Procedure.Keeps b.head) : n.Tame := by
  intro r c hc ctx st st' conclusions hctx hground heffects hevaluate
  have hholds : ∀ call ∈ c.calls, ∀ st : CallState, st.bindings.Ground →
      st.Advances (call.holds n.registry ctx st).2 := by
    intro call _ st hground
    unfold Call.holds
    cases hb : n.registry.get? call.name with
    | none => exact .refl hground
    | some b => exact hbody call.name b hb ctx _ st hctx hground
  have hact : ∀ call, Clause.call call ∈ c.rule.head → ∀ st : CallState, st.bindings.Ground →
      st.Advances (call.act n.registry ctx st) := by
    intro call hcall st hground
    unfold Call.act
    cases hb : n.registry.get? call.name with
    | none => exact .refl hground
    | some b => exact hhead r c call b hc hcall hb ctx _ st hctx hground
  have hasked := advances_allHold hholds hground
  unfold CompiledRule.evaluate at hevaluate
  cases hanswer : allHold (fun call st => call.holds n.registry ctx st) c.calls st with
  | mk held st₁ =>
      rw [hanswer] at hasked hevaluate
      cases held with
      | false => cases hevaluate
      | true =>
          have hdrawn := advances_conclude (r := c.rule) hact hasked.ground
          obtain ⟨hconclusions, rfl⟩ := Prod.mk.inj hevaluate
          obtain rfl := Option.some.inj hconclusions
          refine ⟨hdrawn.1, hdrawn.2.dropped.trans (hasked.dropped.trans ?_)⟩
          rw [heffects]

/-- Compiled with the standard builtins, rules are tame unless a head drops triples. -/
theorem tame_of_standard {rules : List Rule} {n : Network}
    (hn : compile rules Registry.standard = .ok n)
    (hdrop : ∀ rule ∈ rules, ∀ call, Clause.call call ∈ rule.head → ∀ b,
      Registry.standard.get? call.name = some b → b.name ≠ "drop") : n.Tame := by
  obtain ⟨_, hregistry, _⟩ := compile_eq_ok hn
  apply tame_of_keeps
  · intro name b hb
    rw [hregistry] at hb
    exact Builtin.keeps_body_of_mem_standard b (Registry.mem_standard hb)
  · intro r c call b hc hcall hb
    rw [hregistry] at hb
    obtain ⟨rule, hrule, rfl⟩ := exists_rule_of_rule? hn hc
    exact Builtin.keeps_head_of_mem_standard b (Registry.mem_standard hb)
      (hdrop rule hrule call hcall b hb)

end Network

namespace Engine

variable {e e' : Engine MemoryGraph} {n : Network}

/-! ## Operations -/

theorem stocked_start (n : Network) (base : MemoryGraph) : (start n base).Stocked :=
  Work.stocked_reset (start n base)

theorem steady_start (hwired : n.Wired) (hplain : n.Plain) (htame : n.Tame) {base : MemoryGraph}
    (hbase : base.Sound) : (start n base).Steady where
  consistent := by
    refine ⟨hwired, hplain, hbase, MemoryGraph.sound_empty, stocked_start n base, ?_, ?_⟩
    · intro r id token hid
      rw [show (start n base).memory r = .empty from Work.memory_reset (start n base) r] at hid
      cases hid
    · exact fun t => .given (Or.inr (Or.inr (Or.inr (MemoryGraph.contains_empty t))))
  backed t a := by
    constructor
    · intro ha
      cases ha
    · rintro ⟨firing, hfiring, _⟩
      rw [firing?, show (start n base).memory a.rule = .empty from
        Work.memory_reset (start n base) a.rule] at hfiring
      cases hfiring
  tame := htame

/-- What holds of an engine between two operations. -/
structure Resting (e : Engine MemoryGraph) (n : Network) : Prop where
  steady : e.Steady
  quiet : e.Quiet
  network_eq : e.network = n

theorem Runs.network_eq {rechecks last : Nat} (h : Runs rechecks e last e') (he : e.Steady) :
    e'.network = e.network := by
  obtain ⟨e₁, e₂, _, hnetwork, hstepped, rfl⟩ :=
    h.keeps (fun _ e₁ => e₁.network = e.network) he
      (fun _ _ _ _ _ hsame hstepped => hstepped.network_eq.trans hsame) rfl
  exact hstepped.network_eq.trans hnetwork

/-- An operation leaves the engine as it was, or as a run leaves it that goes on from what
the request has left. -/
theorem operate_cases {α : Type} {request : Work MemoryGraph α} {post : Engine MemoryGraph → Prop}
    (hrequest : (∃ cause, request e = .error cause e) ∨
      request.Ends e fun _ e₁ => e₁.Steady ∧ post e₁)
    {budget : Nat} (h : (e.operate budget request).state? = some e') :
    e' = e ∨ ∃ e₁ last, e₁.Steady ∧ post e₁ ∧ Runs 0 e₁ last e' := by
  cases hclosed : e.isClosed with
  | true =>
      rw [operate_of_closed hclosed] at h
      exact Or.inl (Option.some.inj h).symm
  | false =>
      rcases hrequest with ⟨cause, hrefused⟩ | hends
      · rw [operate_of_error hclosed hrefused] at h
        exact Or.inl (Option.some.inj h).symm
      · obtain ⟨a, e₁, hdone, hsteady, hpost⟩ := hends.exists_ok
        rw [operate_of_ok hclosed hdone, Outcome.state?_map] at h
        rcases hsteady.run_cases budget 0 with hrun | ⟨last, e₂, hrun, hruns⟩
        · rw [hrun] at h
          cases h
        · rw [hrun] at h
          obtain rfl : e₂ = e' := Option.some.inj h
          exact Or.inr ⟨e₁, last, hsteady, hpost, hruns⟩

/-- An operation whose request leaves a steady engine leaves one at rest. -/
theorem Resting.operate {α : Type} (he : e.Resting n) {request : Work MemoryGraph α}
    (hrequest : (∃ cause, request e = .error cause e) ∨
      request.Ends e fun _ e₁ => e₁.Steady ∧ e₁.network = n)
    {budget : Nat} (h : (e.operate budget request).state? = some e') : e'.Resting n := by
  rcases operate_cases hrequest h with rfl | ⟨e₁, last, hsteady, hnetwork, hruns⟩
  · exact he
  · obtain ⟨hsteady', hquiet, _⟩ := hruns.steady hsteady
    exact ⟨hsteady', hquiet, (hruns.network_eq hsteady).trans hnetwork⟩

/-- The engines that operations lead to, over a base that began as a graph of its own.
Between operations the settings of an engine and its world may change. -/
inductive Reached (n : Network) : Engine MemoryGraph → Prop where
  | start {base : MemoryGraph} : base.Reachable → Reached n (.start n base)
  | recomputed {e e' : Engine MemoryGraph} {budget : Nat} :
      Reached n e → (e.recompute budget).state? = some e' → Reached n e'
  | added {e e' : Engine MemoryGraph} {budget : Nat} {t : Triple} :
      Reached n e → (e.add budget t).state? = some e' → Reached n e'
  | deleted {e e' : Engine MemoryGraph} {budget : Nat} {t : Triple} :
      Reached n e → (e.delete budget t).state? = some e' → Reached n e'
  | announced {e e' : Engine MemoryGraph} {budget : Nat} {event : Event} :
      Reached n e → (e.announce budget event).state? = some e' → Reached n e'
  | reset {e : Engine MemoryGraph} : Reached n e → Reached n e.reset
  | closed {e : Engine MemoryGraph} : Reached n e → Reached n e.close
  | logging {e : Engine MemoryGraph} {on : Bool} : Reached n e → Reached n (e.setLogging on)
  | settings {e : Engine MemoryGraph} {traceFirings : Bool} {maxRechecks : Nat} {world : World} :
      Reached n e → Reached n { e with traceFirings, maxRechecks, world }

theorem Resting.of_agree (he : e.Resting n)
    (hagree : e' = { e with
      derivations := e'.derivations
      logging := e'.logging
      traceFirings := e'.traceFirings
      maxRechecks := e'.maxRechecks
      state := e'.state
      world := e'.world }) : e'.Resting n where
  steady := he.steady.of_agree (by rw [hagree])
  quiet := by
    rw [hagree]
    exact ⟨he.quiet.events, he.quiet.agenda, he.quiet.suspects⟩
  network_eq := by
    rw [hagree]
    exact he.network_eq

theorem Resting.reset (he : e.Resting n) : e.reset.Resting n where
  steady := by
    have hconsistent := he.steady.consistent
    have hstart := steady_start hconsistent.wired hconsistent.plain he.steady.tame
      hconsistent.base
    exact ⟨⟨hconsistent.wired, hconsistent.plain, hconsistent.base, MemoryGraph.sound_empty,
      Work.stocked_reset e, hstart.consistent.covered, hstart.consistent.accounted⟩,
      hstart.backed, he.steady.tame⟩
  quiet := ⟨rfl, rfl, rfl⟩
  network_eq := he.network_eq

theorem Reached.resting (h : Reached n e) (hwired : n.Wired) (hplain : n.Plain)
    (htame : n.Tame) : e.Resting n := by
  induction h with
  | start hbase => exact ⟨steady_start hwired hplain htame hbase.sound, ⟨rfl, rfl, rfl⟩, rfl⟩
  | @recomputed e e' _ _ hleaves ih =>
      have hconsistent := ih.steady.consistent
      refine ih.operate (Or.inr ((Work.ends_restart hconsistent.base).mono ?_)) hleaves
      intro _ e₁ hrestarts
      exact ⟨hrestarts.steady hconsistent.wired hconsistent.plain ih.steady.tame hconsistent.base,
        hrestarts.network_eq.trans ih.network_eq⟩
  | @added e e' _ t _ hleaves ih =>
      have hconsistent := ih.steady.consistent
      cases ht : t.isGround with
      | false => exact ih.operate (Or.inl ⟨_, Work.addToBase_of_not_ground ht⟩) hleaves
      | true =>
          refine ih.operate (Or.inr ((Work.ends_addToBase hconsistent.base ht).mono ?_)) hleaves
          rintro _ _ ⟨_, rfl⟩
          exact ⟨ih.steady.expanded ht, ih.network_eq⟩
  | @deleted e e' _ t _ hleaves ih =>
      have hconsistent := ih.steady.consistent
      refine ih.operate (Or.inr ((Work.ends_deleteVisible hconsistent.base hconsistent.deductions
        t).mono ?_)) hleaves
      rintro _ _ ⟨_, rfl⟩
      refine ⟨ih.steady.reduced t, ?_⟩
      rw [← ih.network_eq]
      unfold reduced
      split <;> split <;> rfl
  | @announced e e' _ event _ hleaves ih =>
      refine ih.operate (Or.inr (Work.ends_modify.2 ?_)) hleaves
      exact ⟨ih.steady.queue event, ih.network_eq⟩
  | reset _ ih => exact ih.reset
  | closed _ ih => exact ih.reset.of_agree rfl
  | logging _ ih => exact ih.of_agree rfl
  | settings _ ih => exact ih.of_agree rfl

/-! ## What operations preserve -/

/-- Pieces of work on steady engines keep the property, and so does coming to rest. -/
structure Preserved (P : Engine MemoryGraph → Prop) : Prop where
  step : ∀ {rechecks : Nat} {answer : Option Nat} {e e' : Engine MemoryGraph}, e.Steady → P e →
    Work.step rechecks e = .ok answer e' → P e'
  rest : ∀ {e : Engine MemoryGraph}, e.Steady → e.Quiet → P e → P { e with state := .idle }

namespace Preserved

variable {P : Engine MemoryGraph → Prop} {budget : Nat}

theorem ran (hP : Preserved P) {rechecks last : Nat} (h : Runs rechecks e last e')
    (hsteady : e.Steady) (he : P e) : P e' := by
  induction h with
  | stop hstep =>
      have hstepped := hsteady.stepped hstep
      exact hP.rest (hstepped.steady hsteady) hstepped.quiet (hP.step hsteady he hstep)
  | next hstep _ ih =>
      exact ih ((hsteady.stepped hstep).steady hsteady) (hP.step hsteady he hstep)

theorem operated (hP : Preserved P) (he : P e) {α : Type} {request : Work MemoryGraph α}
    (hrequest : (∃ cause, request e = .error cause e) ∨
      request.Ends e fun _ e₁ => e₁.Steady ∧ P e₁)
    (h : (e.operate budget request).state? = some e') : P e' := by
  rcases operate_cases hrequest h with rfl | ⟨e₁, last, hsteady, hkept, hruns⟩
  · exact he
  · exact hP.ran hruns hsteady hkept

theorem recomputed (hP : Preserved P) (he : P e) (hresting : e.Resting n)
    (hrestarted : ∀ e₁, Work.restart e = .ok () e₁ → e.Restarts e₁ → P e₁)
    (h : (e.recompute budget).state? = some e') : P e' := by
  have hsteady := hresting.steady
  have hconsistent := hsteady.consistent
  obtain ⟨_, e₁, hrestart, hrestarts⟩ := (Work.ends_restart hconsistent.base).exists_ok
  have hsteady₁ := hrestarts.steady hconsistent.wired hconsistent.plain hsteady.tame
    hconsistent.base
  exact hP.operated he (Or.inr (.of_ok hrestart ⟨hsteady₁, hrestarted e₁ hrestart hrestarts⟩)) h

theorem added (hP : Preserved P) (he : P e) (hresting : e.Resting n) {t : Triple}
    (hexpanded : t.isGround = true → P (e.expanded t))
    (h : (e.add budget t).state? = some e') : P e' := by
  have hsteady := hresting.steady
  cases ht : t.isGround with
  | false => exact hP.operated he (Or.inl ⟨_, Work.addToBase_of_not_ground ht⟩) h
  | true =>
      refine hP.operated he (Or.inr ((Work.ends_addToBase hsteady.consistent.base ht).mono ?_)) h
      rintro _ _ ⟨_, rfl⟩
      exact ⟨hsteady.expanded ht, hexpanded ht⟩

theorem deleted (hP : Preserved P) (he : P e) (hresting : e.Resting n) {t : Triple}
    (hreduced : P (e.reduced t)) (h : (e.delete budget t).state? = some e') : P e' := by
  have hconsistent := hresting.steady.consistent
  refine hP.operated he (Or.inr ((Work.ends_deleteVisible hconsistent.base hconsistent.deductions
    t).mono ?_)) h
  rintro _ _ ⟨_, rfl⟩
  exact ⟨hresting.steady.reduced t, hreduced⟩

theorem announced (hP : Preserved P) (he : P e) (hresting : e.Resting n) {event : Event}
    (hqueued : P (e.queue event)) (h : (e.announce budget event).state? = some e') : P e' :=
  hP.operated he (Or.inr (Work.ends_modify.2 ⟨hresting.steady.queue event, hqueued⟩)) h

end Preserved

/-! ## Foundations -/

/-- The triple has a finite proof from the base and committed conclusions, whose steps
are firings that stand, with all that they have matched in view. -/
inductive Founded (e : Engine MemoryGraph) : Triple → Prop where
  | base {t : Triple} : e.base.contains t = true → Founded e t
  | committed {t : Triple} : e.committed.contains t = true → Founded e t
  | fired {t : Triple} {a : Activation} {c : CompiledRule} {conclusions : List Triple}
      {hidden : List Node} :
      e.network.rule? a.rule = some c →
      e.firing? a = some (.fired conclusions hidden false) →
      conclusions.any (· == t) = true →
      (e.matchedBy a).length = c.levels →
      (∀ m ∈ e.matchedBy a, e.view.sees m = true) →
      (∀ m ∈ e.matchedBy a, Founded e m) → Founded e t

/-- When nothing waits, every triple in view has a foundation. -/
theorem Steady.founded (he : e.Steady) (hquiet : e.Quiet) {t : Triple}
    (ht : e.view.sees t = true) : e.Founded t := by
  have hclean := not_announced_of_events hquiet.events
  have hgrounded := he.grounded hquiet ht
  clear ht
  induction hgrounded with
  | given hgiven =>
      rcases hgiven with hbase | hcommitted
      · exact .base hbase
      · exact .committed hcommitted
  | step hdraws _ ih =>
      obtain ⟨_, a, ha, rfl⟩ := hdraws
      obtain ⟨firing, hfiring, conclusions, hidden, rfl, hany⟩ := (he.backed _ a).1 ha
      obtain ⟨c, hc, hlength, _⟩ := he.consistent.stocked.rule_of_firing hfiring
      exact .fired hc hfiring hany hlength
        (fun m hm => he.consistent.sees_of_mem_matchedBy hclean hm) ih

/-- Every deduction of an engine between operations has a foundation. -/
theorem founded_of_reached {rules : List Rule}
    (hn : Network.compile rules Registry.standard = .ok n)
    (hdrop : ∀ rule ∈ rules, ∀ call, Clause.call call ∈ rule.head → ∀ b,
      Registry.standard.get? call.name = some b → b.name ≠ "drop")
    (hplain : n.Plain) (h : Reached n e) {t : Triple}
    (ht : e.deductions.contains t = true) : e.Founded t := by
  obtain ⟨hwired, _, _⟩ := Network.compile_eq_ok hn
  have hresting := h.resting hwired hplain (Network.tame_of_standard hn hdrop)
  apply hresting.steady.founded hresting.quiet
  change (e.base.contains t || e.deductions.contains t) = true
  rw [ht, Bool.or_true]

/-! ## An engine that swaps subjects and objects -/

/-- Whatever is linked one way is linked the other way. -/
def mirroring : Rule :=
  .make none [.pattern ⟨.var ⟨"x", 0⟩, .uri "p", .var ⟨"y", 1⟩⟩]
    [.pattern ⟨.var ⟨"y", 1⟩, .uri "p", .var ⟨"x", 0⟩⟩] .forward

def mirrorNetwork : Network :=
  ((Network.compile [mirroring] Registry.standard).toOption).getD default

def link : Triple := ⟨.uri "a", .uri "p", .uri "b"⟩

def backlink : Triple := ⟨.uri "b", .uri "p", .uri "a"⟩

/-- The engine over one link, after the link was added. -/
def mirror : Engine MemoryGraph :=
  let e := start mirrorNetwork .empty
  (e.add 20 link).state?.getD e

theorem compile_mirroring : Network.compile [mirroring] Registry.standard = .ok mirrorNetwork :=
  ok_getD_of_isSome (by decide +kernel)

theorem reached_mirror : Reached mirrorNetwork mirror := by
  have hdone : ((start mirrorNetwork MemoryGraph.empty).add 20 link).state?.isSome = true := by
    decide +kernel
  obtain ⟨e, he⟩ := Option.isSome_iff_exists.1 hdone
  unfold mirror
  simp only [he, Option.getD_some]
  exact .added (.start .empty) he

theorem founded_backlink : mirror.deductions.contains backlink = true ∧
    mirror.Founded backlink := by
  have hdeduced : mirror.deductions.contains backlink = true := by decide +kernel
  refine ⟨hdeduced, founded_of_reached compile_mirroring ?_ ?_ reached_mirror hdeduced⟩
  · intro rule hrule call hcall
    obtain rfl := List.mem_singleton.1 hrule
    cases List.mem_singleton.1 hcall
  · apply Network.plain_of_all
    decide +kernel

/-- Without the link the backlink goes, although both conclude each other. -/
example : ((mirror.delete 20 link).state?.getD mirror).deductions.contains backlink = false := by
  decide +kernel

/-! ## An engine that misses a deletion -/

/-- The second pattern has a functor with a variable for its predicate. -/
def lookingAhead : Rule :=
  .make none
    [.pattern ⟨.var ⟨"a", 0⟩, .uri "p", .var ⟨"x", 1⟩⟩,
      .pattern ⟨.var ⟨"b", 2⟩, .functor "f" [.var ⟨"x", 1⟩], .var ⟨"c", 3⟩⟩]
    [.pattern ⟨.var ⟨"b", 2⟩, .uri "q", .var ⟨"c", 3⟩⟩] .forward

def aheadNetwork : Network :=
  ((Network.compile [lookingAhead] Registry.standard).toOption).getD default

def fact : Triple := ⟨.uri "s", .functor "f" [.integer 1], .uri "o"⟩

def stale : Triple := ⟨.uri "s", .uri "q", .uri "o"⟩

/-- The engine over the fact that the second pattern finds, after it was deleted. -/
def ahead : Engine MemoryGraph :=
  let e := start aheadNetwork .empty
  let e := (e.add 20 fact).state?.getD e
  let e := (e.add 20 ⟨.uri "u", .uri "p", .integer 1⟩).state?.getD e
  (e.delete 20 fact).state?.getD e

/-- Without plain predicates a conclusion may outlast what it was drawn from. -/
theorem not_founded_stale :
    Network.compile [lookingAhead] Registry.standard = .ok aheadNetwork ∧
      ahead.state = .idle ∧ ahead.deductions.contains stale = true ∧ ¬ ahead.Founded stale := by
  refine ⟨ok_getD_of_isSome (by decide +kernel), by decide +kernel, by decide +kernel, ?_⟩
  have hmatched : ((ahead.memory 0).firings.entries.all fun x =>
      (ahead.matchedBy ⟨0, x.1⟩).any fun m => !ahead.view.sees m) = true := by decide +kernel
  have hrules : ahead.network.rules.length = 1 := by decide +kernel
  intro h
  cases h with
  | base hbase => exact absurd hbase (by decide +kernel)
  | committed hcommitted => exact absurd hcommitted (by decide +kernel)
  | @fired _ a _ _ _ hc hfiring _ _ hseen _ =>
      obtain ⟨rule, id⟩ := a
      have hrule : rule < ahead.network.rules.length := (List.getElem?_eq_some_iff.1 hc).1
      obtain rfl : rule = 0 := by omega
      have hgone := List.all_eq_true.1 hmatched _ (OrderedMap.mem_entries_iff.2 hfiring)
      obtain ⟨m, hm, hnot⟩ := List.any_eq_true.1 hgone
      rw [hseen m hm] at hnot
      cases hnot

end Engine

end Entailment
