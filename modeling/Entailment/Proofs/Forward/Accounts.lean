import Entailment.Proofs.Derivation.Verification
import Entailment.Proofs.Forward.Flatness
import Entailment.Proofs.Forward.Lifetime
import Entailment.Proofs.Graph.Refinement

/-!
# Accounts of what is deduced

Over flat facts, rules whose heads have no functors and call monotonic builtins account for
what they deduce: every derivation in the log can be checked, and its antecedents are in
view.  It has been checked when it was recorded, and it is in the log only as long as a
firing that has drawn its conclusion by it holds the conclusion up.  What has matched facts
for an activation leaves it when one of them goes.  It needs that no pattern after the
first of its rule has a functor with variables for its predicate.
-/

namespace Entailment

/-- A derivation in the log is recorded for a triple. -/
theorem DerivationLog.exists_of_mem_derivations {log : DerivationLog} {d : Derivation}
    (h : d ∈ log.derivations) : ∃ t, d ∈ log.get t := by
  obtain ⟨recorded, hrecorded, hd⟩ := List.mem_flatten.1 h
  obtain ⟨t, ht⟩ := OrderedMap.mem_values_iff.1 hrecorded
  refine ⟨t, ?_⟩
  rw [get, ht]
  exact hd

/-- The rules account for what they conclude, and take no facts away. -/
structure Network.Accountable (n : Network) : Prop where
  rule : ∀ r c, n.rule? r = some c →
    ∃ rule, c = .ofRule n.registry rule ∧ rule.Accountable n.registry
  spared : ∀ r c, n.rule? r = some c → c.destructive = false
  mild : n.Mild
  drawsFlat : n.DrawsFlat

theorem Network.accountable_of_compile {rules : List Rule} {n : Network}
    (hn : compile rules Registry.standard = .ok n) (hmade : ∀ rule ∈ rules, rule.Made)
    (hplain : ∀ rule ∈ rules, ∀ p, Clause.pattern p ∈ rule.head →
      ∀ m ∈ p.nodes, m.isFunctor = false)
    (hsparing : ∀ rule ∈ rules, rule.Sparing Registry.standard) : n.Accountable where
  rule r c hc := by
    obtain ⟨hwired, hregistry, _⟩ := compile_eq_ok hn
    obtain ⟨rule, hcompiled, _, hvalid⟩ := (hwired.rule r c hc).compiled
    obtain ⟨source, hsource, hsame⟩ := exists_rule_of_rule? hn hc
    obtain rfl : rule = source := congrArg CompiledRule.rule (hcompiled.symm.trans hsame)
    rw [hregistry] at hvalid ⊢
    exact ⟨rule, hsame, Rule.accountable_of_standard hvalid (hmade rule hsource)
      (hplain rule hsource) (hsparing rule hsource).kept⟩
  spared r c hc := by
    obtain ⟨rule, hrule, rfl⟩ := exists_rule_of_rule? hn hc
    exact CompiledRule.destructive_eq_false_iff.2 (hsparing rule hrule)
  mild := mild_of_standard hn fun rule hrule => (hsparing rule hrule).kept
  drawsFlat := by
    refine drawsFlat_of_compile hn Registry.binds_standard fun rule hrule i hi => ?_
    -- Nothing is inside a functor of the head.
    obtain ⟨p, hp, hinner⟩ := List.mem_flatMap.1 hi
    obtain ⟨m, hm, hi⟩ := List.mem_flatMap.1 hinner
    have hfunctor := hplain rule hrule p (Rule.mem_filterMap_pattern?_iff.1 hp) m hm
    cases m with
    | functor f args => cases hfunctor
    | _ => cases hi

namespace Engine

section Ledger

variable {γ : Type} {n : Network} {told : Activation → List Triple} {alive : Activation → Prop}

/-- Every derivation in the log can be checked, and a supporter of its conclusion has drawn
the conclusion by it. -/
structure Vouched (n : Network) (told : Activation → List Triple) (alive : Activation → Prop)
    (e : Engine γ) : Prop where
  network_eq : e.network = n
  logging : e.logging = true
  supporter : ∀ t, ∀ a ∈ e.supporters t, alive a
  drawn : ∀ t, ∀ d ∈ e.derivations.get t, e.Drawn n told t d
  checked : ∀ t, ∀ d ∈ e.derivations.get t, d.Checked

namespace Vouched

variable {e e' : Engine γ}

theorem of_proofs (he : e.Vouched n told alive) (hnetwork : e'.network = e.network)
    (hsupport : e'.support = e.support) (hderivations : e'.derivations = e.derivations)
    (hlogging : e'.logging = e.logging) : e'.Vouched n told alive := by
  have hsupporters : ∀ t, e'.supporters t = e.supporters t := fun t => by
    rw [supporters, supporters, hsupport]
  refine ⟨hnetwork.trans he.network_eq, hlogging.trans he.logging, ?_, ?_, ?_⟩
  · simpa only [hsupporters] using he.supporter
  · simpa only [Drawn, hsupporters, hderivations] using he.drawn
  · simpa only [hderivations] using he.checked

/-- Who supports what may be told in another way. -/
theorem retell {told' : Activation → List Triple} {alive' : Activation → Prop}
    (he : e.Vouched n told alive)
    (h : ∀ t, ∀ a ∈ e.supporters t, alive' a ∧ told' a = told a) : e.Vouched n told' alive' where
  network_eq := he.network_eq
  logging := he.logging
  supporter t a ha := (h t a ha).1
  drawn t d hd := by
    obtain ⟨a, ha, c, hc, hsame⟩ := he.drawn t d hd
    refine ⟨a, ha, c, hc, ?_⟩
    rwa [(h t a ha).2]
  checked := he.checked

/-- Conclusions that are drawn have derivations that can be checked. -/
theorem ledger (hspared : ∀ r c, n.rule? r = some c → c.destructive = false) :
    Ledger n told alive (fun a c t => (c.derivation (told a) t).Checked)
      (Vouched n told alive : Engine γ → Prop) where
  ofProofs _ _ hnetwork hsupport _ hderivations hlogging he :=
    he.of_proofs hnetwork hsupport hderivations hlogging
  network_eq _ he := he.network_eq
  logging _ he := he.logging
  lose {e e' a c t} he hc _ hnetwork hlogging _ hderivations hsupporters := by
    have hold : ∀ u, ∀ d ∈ e'.derivations.get u, d ∈ e.derivations.get u ∧
        ¬ ((t == u) = true ∧ (d == c.derivation (told a) t) = true) := fun u d hd => by
      rw [hderivations] at hd
      exact DerivationLog.mem_get_remove.1 hd
    refine ⟨hnetwork.trans he.network_eq, hlogging.trans he.logging,
      fun u b hb => he.supporter u b ((hsupporters u b).1 hb).1, fun u d hd => ?_,
      fun u d hd => he.checked u d (hold u d hd).1⟩
    exact (he.drawn u d (hold u d hd).1).lose hc (hold u d hd).2 hsupporters
  gain {e e' a c t} he hc ha hchecked hnetwork hlogging hderivations _ hsupporters := by
    have hnew : ∀ u, ∀ d ∈ e'.derivations.get u, d ∈ e.derivations.get u ∨
        d = c.derivation (told a) t ∧ (t == u) = true := fun u d hd => by
      rw [hderivations] at hd
      exact DerivationLog.mem_get_record hd
    refine ⟨hnetwork.trans he.network_eq, hlogging.trans he.logging, fun u b hb => ?_,
      fun u d hd => ?_, fun u d hd => ?_⟩
    · rcases (hsupporters u b).1 hb with hb | ⟨_, _, rfl⟩
      · exact he.supporter u b hb
      · exact ha
    · rcases hnew u d hd with hd | ⟨rfl, hsame⟩
      · exact (he.drawn u d hd).mono fun b hb => (hsupporters u b).2 (Or.inl hb)
      · have hsupports := (hsupporters u a).2 (Or.inr ⟨hspared a.rule c hc, hsame, rfl⟩)
        exact Drawn.of_supporter hsupports hc hsame
    · rcases hnew u d hd with hd | ⟨rfl, _⟩
      · exact he.checked u d hd
      · exact hchecked

/-- An engine that has concluded nothing has recorded nothing. -/
theorem of_empty (hnetwork : e.network = n) (hlogging : e.logging = true)
    (hsupport : e.support = .empty) (hderivations : e.derivations = .empty) :
    e.Vouched n told alive := by
  have hnone : ∀ {t d}, d ∉ e.derivations.get t := fun {t d} hd => by
    rw [hderivations] at hd
    cases hd
  refine ⟨hnetwork, hlogging, fun t a ha => ?_, fun t d hd => absurd hd hnone,
    fun t d hd => absurd hd hnone⟩
  rw [supporters, hsupport] at ha
  cases ha

end Vouched

end Ledger

variable {e e' : Engine MemoryGraph} {n : Network}

/-! ## Engines that account for what they deduce -/

/-- The engine holds flat facts, and its derivations are those of activations that are
there, from what these have matched. -/
structure Answerable (n : Network) (e : Engine MemoryGraph) : Prop where
  flat : e.Flat (fun base => base.Sound ∧ base.Flat) n
  vouched : e.Vouched n e.matchedBy e.Alive

namespace Answerable

theorem of_proofs (he : e.Answerable n)
    (hflat : e'.Flat (fun base => base.Sound ∧ base.Flat) n) (hmemories : e'.memories = e.memories)
    (hsupport : e'.support = e.support) (hderivations : e'.derivations = e.derivations)
    (hlogging : e'.logging = e.logging) : e'.Answerable n where
  flat := hflat
  vouched := by
    have hnetwork := hflat.network_eq.trans he.flat.network_eq.symm
    refine (he.vouched.of_proofs hnetwork hsupport hderivations hlogging).retell fun t a ha => ?_
    rw [supporters, hsupport] at ha
    obtain ⟨firing, hfiring⟩ := he.vouched.supporter t a ha
    exact ⟨⟨firing, (firing?_of_memories_eq hmemories).trans hfiring⟩,
      matchedBy_of_memories_eq hmemories a⟩

/-- What an activation concludes has a derivation that can be checked. -/
theorem draws (he : e.Answerable n) (hsteady : e.Steady) (hn : n.Accountable) :
    Work.Draws e e.matchedBy fun a c t => (c.derivation (e.matchedBy a) t).Checked := by
  intro a c b st conclusions hc hb hevaluate
  have hfacts : ∀ t ∈ e.matchedBy a, t.FlatFact := (he.flat.memory a.rule).triples a.token
  have hfind : ∀ p, ∀ t ∈ (CallContext.ofView e.view c.label (c.matched (e.matchedBy a))
      false).find p, t.FlatFact := by
    intro p t ht
    simp only [CallContext.ofView] at ht
    split at ht
    · rename_i found hfound
      exact Work.flat_of_view_find MemoryGraph.keepsFlat he.flat hfound t ht
    · cases ht
  have hmatches := (CompiledRule.matches_of_bindings (fun t ht => (hfacts t ht).ground) hb).1
  have hground := (hsteady.tame a.rule c hc _ _ st conclusions
    (fun p t ht => (hfind p t ht).ground) hmatches.ground rfl hevaluate).1
  rw [he.flat.network_eq] at hc hevaluate
  obtain ⟨rule, rfl, hrule⟩ := hn.rule a.rule c hc
  exact CompiledRule.checked_of_evaluate hrule (fun p t ht => (hfind p t ht).ground)
    (fun p t ht => (hfind p t ht).unnested) (fun t ht => (hfacts t ht).ground)
    (fun t ht => (hfacts t ht).unnested) hb hevaluate hground

/-- A piece of work leaves an engine that accounts for what it deduces. -/
theorem stepped (he : e.Answerable n) (hsteady : e.Steady) (hn : n.Accountable) {rechecks : Nat}
    {answer : Option Nat} (h : Work.step rechecks e = .ok answer e') : e'.Answerable n := by
  have hstepped := hsteady.stepped h
  have hvouched := Work.leaves_step_ledger (Vouched.ledger hn.spared) he.vouched hn.mild
    (he.draws hsteady hn) (fun _ => rfl) (fun _ firing ha => ⟨firing, ha⟩) rechecks answer e' h
  refine ⟨Work.keeps_step_flat MemoryGraph.keepsFlat hn.drawsFlat rechecks e answer e' he.flat h,
    hvouched.retell fun t a ha => ?_⟩
  exact (hstepped.inherits hsteady).of_supporter (hstepped.steady hsteady).backed ha
    (hvouched.supporter t a ha)

theorem preserved (hn : n.Accountable) : Preserved (Answerable n) where
  step hsteady he h := he.stepped hsteady hn h
  rest _ _ he := he.of_proofs (he.flat.of_eq rfl rfl rfl rfl) rfl rfl rfl rfl

/-! ### Requests -/

theorem of_start (n : Network) {base : MemoryGraph} (hbase : base.Sound ∧ base.Flat) :
    ((start n base).setLogging true).Answerable n where
  flat := by
    have hstart : (start n base).Flat (fun base => base.Sound ∧ base.Flat) n := .start hbase
    exact hstart.of_eq rfl rfl rfl rfl
  vouched := .of_empty rfl rfl rfl rfl

theorem restarted (he : e.Answerable n) (hrestart : Work.restart e = .ok () e')
    (h : e.Restarts e') : e'.Answerable n where
  flat := Work.keeps_request_flat (o := .recompute) MemoryGraph.keepsFlat (by rintro ⟨⟩)
    (fun _ h => by cases h) e () e' he.flat hrestart
  vouched := by
    refine .of_empty (h.network_eq.trans he.flat.network_eq) ?_ ?_ ?_
    · rw [h.frame]
      exact he.vouched.logging
    · rw [h.frame]
      rfl
    · rw [h.frame]
      rfl

theorem expanded (he : e.Answerable n) {t : Triple} (ht : t.FlatFact) :
    (e.expanded t).Answerable n := by
  have hbase := MemoryGraph.keepsFlat.add he.flat.base ht.unnested (he.flat.base.1.add_eq ht.ground)
  exact he.of_proofs ((he.flat.replace hbase he.flat.deductions).of_eq rfl rfl rfl rfl)
    rfl rfl rfl rfl

theorem reduced (he : e.Answerable n) (t : Triple) : (e.reduced t).Answerable n := by
  have hbase := MemoryGraph.keepsFlat.delete he.flat.base (he.flat.base.1.delete_eq t)
  have hdeductions := MemoryGraph.keepsFlat.delete he.flat.deductions
    (he.flat.deductions.1.delete_eq t)
  have hkept := he.flat.replace hbase he.flat.deductions
  have hlost := he.flat.replace hbase hdeductions
  unfold Engine.reduced
  split <;> split
  · exact he.of_proofs (hkept.of_eq rfl rfl rfl rfl) rfl rfl rfl rfl
  · exact he.of_proofs (hkept.of_eq rfl rfl rfl rfl) rfl rfl rfl rfl
  · exact he.of_proofs (hlost.of_eq rfl rfl rfl rfl) rfl rfl rfl rfl
  · exact he.of_proofs hlost rfl rfl rfl rfl

end Answerable

/-! ## Histories -/

/-- The engines that operations lead to over flat facts, while derivations are recorded. -/
inductive Recounted (n : Network) : Engine MemoryGraph → Prop where
  | start {base : MemoryGraph} :
      base.Reachable → base.Flat → Recounted n ((start n base).setLogging true)
  | recomputed {e e' : Engine MemoryGraph} {budget : Nat} :
      Recounted n e → (e.recompute budget).state? = some e' → Recounted n e'
  | added {e e' : Engine MemoryGraph} {budget : Nat} {t : Triple} :
      Recounted n e → t.Unnested → (e.add budget t).state? = some e' → Recounted n e'
  | deleted {e e' : Engine MemoryGraph} {budget : Nat} {t : Triple} :
      Recounted n e → (e.delete budget t).state? = some e' → Recounted n e'
  | announced {e e' : Engine MemoryGraph} {budget : Nat} {event : Event} :
      Recounted n e → (e.announce budget event).state? = some e' → Recounted n e'
  | settings {e : Engine MemoryGraph} {traceFirings : Bool} {maxRechecks : Nat} {world : World} :
      Recounted n e → Recounted n { e with traceFirings, maxRechecks, world }

theorem Recounted.reached (h : Recounted n e) : Reached n e := by
  induction h with
  | start hbase _ => exact .logging (.start hbase)
  | recomputed _ hleaves ih => exact ih.recomputed hleaves
  | added _ _ hleaves ih => exact ih.added hleaves
  | deleted _ hleaves ih => exact ih.deleted hleaves
  | announced _ hleaves ih => exact ih.announced hleaves
  | settings _ ih => exact ih.settings

theorem Recounted.answerable (h : Recounted n e) (hwired : n.Wired) (hplain : n.Plain)
    (htame : n.Tame) (hn : n.Accountable) : e.Answerable n := by
  have hpreserved := Answerable.preserved hn
  induction h with
  | start hbase hflat => exact .of_start n ⟨hbase.sound, hflat⟩
  | recomputed hrecounted hleaves ih =>
      exact hpreserved.recomputed ih (hrecounted.reached.resting hwired hplain htame)
        (fun _ hrestart hrestarts => ih.restarted hrestart hrestarts) hleaves
  | added hrecounted hflat hleaves ih =>
      exact hpreserved.added ih (hrecounted.reached.resting hwired hplain htame)
        (fun ht => ih.expanded ⟨ht, hflat⟩) hleaves
  | deleted hrecounted hleaves ih =>
      exact hpreserved.deleted ih (hrecounted.reached.resting hwired hplain htame) (ih.reduced _)
        hleaves
  | announced hrecounted hleaves ih =>
      exact hpreserved.announced ih (hrecounted.reached.resting hwired hplain htame)
        (ih.of_proofs (ih.flat.of_eq rfl rfl rfl rfl) rfl rfl rfl rfl) hleaves
  | settings _ ih => exact ih.of_proofs (ih.flat.of_eq rfl rfl rfl rfl) rfl rfl rfl rfl

/-- At rest, what a derivation in the log has matched is in view. -/
theorem Answerable.sees_matched (he : e.Answerable n) (hresting : e.Resting n) {t : Triple}
    {d : Derivation} (hd : d ∈ e.derivations.get t) {m : Triple} (hm : m ∈ d.matchedTriples) :
    e.view.sees m = true := by
  obtain ⟨a, _, c, _, hsame⟩ := he.vouched.drawn t d hd
  obtain ⟨u, hu, hum⟩ := CompiledRule.exists_mem_of_matchedTriples hsame hm
  rw [← e.view.sees_congr hum]
  exact hresting.steady.consistent.sees_of_mem_matchedBy
    (not_announced_of_events hresting.quiet.events) hu

/-- Every derivation in the log can be checked, has an antecedent for each pattern of its
rule and for nothing else, and has matched what is in view. -/
theorem verify_of_recounted {rules : List Rule}
    (hn : Network.compile rules Registry.standard = .ok n) (hmade : ∀ rule ∈ rules, rule.Made)
    (hhead : ∀ rule ∈ rules, ∀ p, Clause.pattern p ∈ rule.head →
      ∀ m ∈ p.nodes, m.isFunctor = false)
    (hsparing : ∀ rule ∈ rules, rule.Sparing Registry.standard) (hplain : n.Plain)
    (h : Recounted n e) : ∀ d ∈ e.derivations.derivations, d.verify = true ∧
      d.antecedents.map Option.isSome = d.rule.body.map (fun clause => clause.pattern?.isSome) ∧
      ∀ t ∈ d.matchedTriples, e.view.sees t = true := by
  obtain ⟨hwired, _, _⟩ := Network.compile_eq_ok hn
  have htame : n.Tame := Network.tame_of_standard hn fun rule hrule c hc b hb =>
    ((hsparing rule hrule).kept c hc b hb).2
  have haccountable := Network.accountable_of_compile hn hmade hhead hsparing
  have hanswerable := h.answerable hwired hplain htame haccountable
  intro d hd
  obtain ⟨t, ht⟩ := DerivationLog.exists_of_mem_derivations hd
  obtain ⟨hverify, hshape⟩ := hanswerable.vouched.checked t d ht
  exact ⟨hverify, hshape, fun m hm =>
    hanswerable.sees_matched (h.reached.resting hwired hplain htame) ht hm⟩

theorem recounted_telling : Recounted mirrorNetwork telling := by
  have hlink : ∀ m ∈ link.nodes, m.isNested = false := by decide
  obtain ⟨_, hrecomputed, hadded⟩ := exists_telling
  exact ((Recounted.start .empty MemoryGraph.flat_empty).recomputed hrecomputed).added hlink hadded

theorem verify_of_recounted_telling : telling.derivations.derivations.length = 2 ∧
    ∀ d ∈ telling.derivations.derivations, d.verify = true ∧
      d.antecedents.map Option.isSome = d.rule.body.map (fun clause => clause.pattern?.isSome) ∧
      ∀ t ∈ d.matchedTriples, telling.view.sees t = true := by
  refine ⟨by decide +kernel, verify_of_recounted compile_mirroring ?_ ?_ ?_ ?_ recounted_telling⟩
  · intro rule hrule
    obtain rfl := List.mem_singleton.1 hrule
    exact ⟨_, _, _, _, rfl⟩
  · intro rule hrule p hp
    obtain rfl := List.mem_singleton.1 hrule
    cases List.mem_singleton.1 hp
    decide
  · intro rule hrule c hc
    obtain rfl := List.mem_singleton.1 hrule
    cases List.mem_singleton.1 hc
  · exact Network.plain_of_all (by decide +kernel)

/-! ## A derivation that outlasts what it was drawn from -/

/-- The engine over the fact that the second pattern finds, after it was deleted, with
derivations recorded. -/
def recalling : Engine MemoryGraph :=
  let e := (start aheadNetwork .empty).setLogging true
  let e := (e.recompute 20).state?.getD e
  let e := (e.add 20 fact).state?.getD e
  let e := (e.add 20 ⟨.uri "u", .uri "p", .integer 1⟩).state?.getD e
  (e.delete 20 fact).state?.getD e

/-- Without plain predicates a derivation may stay in the log when what it has matched goes. -/
theorem not_verify_of_recounted_recalling :
    Network.compile [lookingAhead] Registry.standard = .ok aheadNetwork ∧
      Recounted aheadNetwork recalling ∧ recalling.state = .idle ∧
      ∃ d ∈ recalling.derivations.derivations, ∃ t ∈ d.matchedTriples,
        recalling.view.sees t = false := by
  have hflat : ∀ t ∈ [fact, ⟨.uri "u", .uri "p", .integer 1⟩], ∀ m ∈ t.nodes,
      m.isNested = false := by decide
  refine ⟨ok_getD_of_isSome (by decide +kernel), ?_, by decide +kernel, ?_⟩
  · have hrecompute : ∀ e, Recounted aheadNetwork e → (e.recompute 20).state?.isSome = true →
        Recounted aheadNetwork ((e.recompute 20).state?.getD e) :=
      fun _ h hdone => h.recomputed (Outcome.state?_eq_getD hdone _)
    have hadd : ∀ e, ∀ t ∈ [fact, ⟨.uri "u", .uri "p", .integer 1⟩], Recounted aheadNetwork e →
        (e.add 20 t).state?.isSome = true → Recounted aheadNetwork ((e.add 20 t).state?.getD e) :=
      fun _ t ht h hdone => h.added (hflat t ht) (Outcome.state?_eq_getD hdone _)
    have hdelete : ∀ e, Recounted aheadNetwork e → (e.delete 20 fact).state?.isSome = true →
        Recounted aheadNetwork ((e.delete 20 fact).state?.getD e) :=
      fun _ h hdone => h.deleted (Outcome.state?_eq_getD hdone _)
    have hstart := hrecompute _ (.start .empty MemoryGraph.flat_empty) (by decide +kernel)
    have hfound := hadd _ fact (by simp) hstart (by decide +kernel)
    have hjoined := hadd _ ⟨.uri "u", .uri "p", .integer 1⟩ (by simp) hfound (by decide +kernel)
    exact hdelete _ hjoined (by decide +kernel)
  · have hstale : (recalling.derivations.derivations.any fun d =>
        d.matchedTriples.any fun t => !recalling.view.sees t) = true := by decide +kernel
    obtain ⟨d, hd, hany⟩ := List.any_eq_true.1 hstale
    obtain ⟨t, ht, hgone⟩ := List.any_eq_true.1 hany
    exact ⟨d, hd, t, ht, by simpa using hgone⟩

end Engine

end Entailment
