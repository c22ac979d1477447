import Entailment.Proofs.Builtin.Binding
import Entailment.Proofs.Forward.Foundation
import Entailment.Proofs.Forward.Operation
import Entailment.Proofs.Forward.Thoroughness

/-!
# Requests are all that fails

The checks of an engine's own books never fail.  Its firings support what they have
concluded, its complete tokens agree with the patterns of their rules and its rules draw
ground conclusions only, whatever is negated, removed, dropped or hidden and whatever
happens to the base without notice.  So an engine that is not closed stays open, and an
operation fails only where it is to add a triple that is not ground, and changes nothing
then.
-/

namespace Entailment

/-- Rules draw ground conclusions if their calls only bind. -/
theorem Network.concrete_of_binds {n : Network}
    (hbody : ∀ r c, n.rule? r = some c → ∀ call ∈ c.calls, ∀ b,
      n.registry.get? call.name = some b → Procedure.Binds b.body)
    (hhead : ∀ r c, n.rule? r = some c → ∀ call, Clause.call call ∈ c.rule.head → ∀ b,
      n.registry.get? call.name = some b → Procedure.Binds b.head) : n.Concrete := by
  intro r c hc ctx st st' conclusions _ hground _ hevaluate
  have hholds : ∀ call ∈ c.calls, ∀ st : CallState,
      st.bindings.Evolves (call.holds n.registry ctx st).2.bindings :=
    fun call hcall => call.evolves_holds (hbody r c hc call hcall) ctx
  have hact : ∀ call, Clause.call call ∈ c.rule.head → ∀ st : CallState,
      st.bindings.Evolves (call.act n.registry ctx st).bindings :=
    fun call hcall => call.evolves_act (hhead r c hc call hcall) ctx
  have hasked := solid_allHold hholds hground.solid
  unfold CompiledRule.evaluate at hevaluate
  cases hanswer : allHold (fun call st => call.holds n.registry ctx st) c.calls st with
  | mk held st₁ =>
      rw [hanswer] at hasked hevaluate
      cases held with
      | false => cases hevaluate
      | true =>
          obtain ⟨hconclusions, _⟩ := Prod.mk.inj hevaluate
          rw [← Option.some.inj hconclusions]
          exact isGround_of_mem_conclude hact hasked

namespace Engine

variable {e e' : Engine MemoryGraph} {n : Network} {a : Activation}

/-- Whoever has fired had fired before. -/
def Tacit (e e' : Engine MemoryGraph) : Prop :=
  ∀ (a : Activation) (conclusions : List Triple) (hidden : List Node) (committed : Bool),
    e'.firing? a = some (.fired conclusions hidden committed) →
    e.firing? a = some (.fired conclusions hidden committed)

theorem tacit_of_memories_eq (h : e'.memories = e.memories) : e.Tacit e' :=
  fun _ _ _ _ ha => firing?_of_memories_eq h ▸ ha

theorem Extends.tacit (h : e.Extends e') : e.Tacit e' := by
  intro a conclusions hidden committed ha
  rcases h.scheduled a _ ha with hold | ⟨hpending, _⟩
  · exact hold
  · cases hpending

/-- What the engine of a network relies on, whatever becomes of its base. -/
structure Sturdy (n : Network) (e : Engine MemoryGraph) : Prop where
  network_eq : e.network = n
  orderly : e.Orderly
  ground : ∀ a conclusions hidden committed,
    e.firing? a = some (.fired conclusions hidden committed) →
    ∀ t ∈ conclusions, t.isGround = true

namespace Sturdy

theorem tacit (he : e.Sturdy n) (hnetwork : e'.network = e.network) (horderly : e'.Orderly)
    (htacit : e.Tacit e') : e'.Sturdy n where
  network_eq := hnetwork.trans he.network_eq
  orderly := horderly
  ground a _ _ _ ha := he.ground a _ _ _ (htacit a _ _ _ ha)

theorem of_agree (he : e.Sturdy n)
    (hagree : e' = { e with
      events := e'.events
      agenda := e'.agenda
      committed := e'.committed
      suspects := e'.suspects
      derivations := e'.derivations
      hidden := e'.hidden
      logging := e'.logging
      traceFirings := e'.traceFirings
      maxRechecks := e'.maxRechecks
      state := e'.state
      stats := e'.stats
      world := e'.world }) : e'.Sturdy n :=
  he.tacit (by rw [hagree]) (he.orderly.of_agree hagree) (tacit_of_memories_eq (by rw [hagree]))

/-- Base and deductions may change, with or without notice. -/
theorem shift (he : e.Sturdy n)
    (hframe : e' = { e with
      base := e'.base
      deductions := e'.deductions
      committed := e'.committed
      suspects := e'.suspects
      events := e'.events })
    (hbase : e'.base.Sound) (hsound : e'.deductions.Sound) : e'.Sturdy n := by
  refine he.tacit (by rw [hframe]) ⟨?_, hbase, hsound, ?_, ?_⟩
    (tacit_of_memories_eq (by rw [hframe]))
  · rw [hframe]
    exact he.orderly.wired
  · rw [hframe]
    exact he.orderly.stocked
  · rw [hframe]
    exact he.orderly.backed

/-! ## Pieces of work -/

theorem enters (he : e.Sturdy n) {t : Triple} (h : Enters t e e') : e'.Sturdy n := by
  have hgrown := h.grown
  refine he.tacit hgrown.network_eq ⟨?_, ?_, ?_, hgrown.stocked, hgrown.backed he.orderly.backed⟩
    hgrown.tacit
  · rw [hgrown.network_eq]
    exact he.orderly.wired
  · rw [hgrown.base_eq]
    exact he.orderly.base
  · rw [hgrown.frame]
    exact he.orderly.deductions

/-- The tokens of a rule that hold a triple have gone. -/
theorem retracts (he : e.Sturdy n) {rule : Nat} {c : CompiledRule} {t : Triple}
    (hc : e.network.rule? rule = some c) (hrecedes : (e.cleared rule t).Recedes e')
    (hbacked : e'.Backed) : e'.Sturdy n := by
  refine he.tacit hrecedes.network_eq ⟨?_, ?_, hrecedes.sound, ?_, hbacked⟩ ?_
  · rw [hrecedes.frame]
    exact he.orderly.wired
  · rw [hrecedes.frame]
    exact he.orderly.base
  · rw [hrecedes.frame]
    exact he.orderly.stocked.cleared hc t
  · intro a conclusions hidden committed ha
    rw [firing?_of_memories_eq hrecedes.memories_eq] at ha
    exact (firing?_cleared he.orderly.stocked hc ha).1

/-- A firing that waited has been settled, or it is blocked. -/
theorem dealt (he : e.Sturdy n) (h : e.Dealt a e') : e'.Sturdy n := by
  cases h with
  | stale => exact he
  | @blocked c _ _ _ ha hc _ _ hframe =>
      have hlt := he.orderly.stocked.lt_length hc
      have hset : (e.setFiring a .blocked).Sturdy n := by
        refine ⟨he.network_eq, he.orderly.setFiring hc ha (fun _ _ _ h => nomatch h)
          (he.orderly.backed.setFiring hlt ha not_concludes_pending not_concludes_blocked), ?_⟩
        intro d conclusions hidden committed hd
        rw [firing?_setFiring hlt] at hd
        split at hd
        · cases hd
        · exact he.ground d _ _ _ hd
      exact hset.of_agree (by rw [hframe])
  | @drawn c _ st drawn _ _ _ _ ha hc _ hevaluate hground hframe hadopts hpurges hsheds =>
      have hlt := he.orderly.stocked.lt_length hc
      have hbacked := he.orderly.backed.drawn ha hlt hframe hadopts
      have hstocked :
          (e.setFiring a (.fired drawn st.effects.hidden c.destructive)).Stocked := by
        refine he.orderly.stocked.setFiring hc
          ((he.orderly.stocked.2 a.rule).firing_lt a.token _ ha)
          ((he.orderly.stocked.2 a.rule).firing c hc a.token _ ha) ?_
        intro _ _ _ hsame
        cases hsame
        exact ⟨CompiledRule.distinct_of_evaluate hevaluate, rfl⟩
      have hmemories : e'.memories =
          (e.setFiring a (.fired drawn st.effects.hidden c.destructive)).memories := by
        rw [hsheds.frame, hpurges.frame, hadopts.frame, hframe]
      refine ⟨?_, ⟨?_, hsheds.soundBase, hsheds.sound, ?_, ?_⟩, ?_⟩
      · rw [hsheds.frame, hpurges.frame, hadopts.frame, hframe]
        exact he.network_eq
      · rw [hsheds.frame, hpurges.frame, hadopts.frame, hframe]
        exact he.orderly.wired
      · rw [hsheds.frame, hpurges.frame, hadopts.frame, hframe]
        exact hstocked
      · rw [hsheds.frame]
        exact hpurges.backed hbacked
      · intro d conclusions hidden committed hd
        rw [firing?_of_memories_eq hmemories, firing?_setFiring hlt] at hd
        split at hd
        · cases hd
          exact hground
        · exact he.ground d _ _ _ hd

theorem reviewed (he : e.Sturdy n) {t : Triple} (h : e.Reviewed e' t) : e'.Sturdy n := by
  rcases h with ⟨hframe, _⟩ | ⟨hframe, _⟩
  · exact he.of_agree (by rw [hframe])
  · have hwithdrawn : (e.withdrawn t).Sturdy n :=
      he.tacit rfl (he.orderly.recedes (recedes_withdrawn he.orderly.deductions t)
        he.orderly.backed) (tacit_of_memories_eq rfl)
    exact hwithdrawn.of_agree (by rw [hframe])

theorem reasked (he : e.Sturdy n) {asked : List Activation} {changed : Bool}
    (h : e.Reasked asked changed e') : e'.Sturdy n := by
  induction h with
  | none => exact he
  | @next _ _ _ _ _ _ a c firing _ hc _ hfiring hrevisable hreconsidered ih =>
      refine ih.tacit hreconsidered.network_eq
        (hreconsidered.orderly ih.orderly hc hfiring hrevisable) ?_
      exact fun _ _ _ _ ha =>
        hreconsidered.firing?_of_fired (ih.orderly.stocked.lt_length hc) ha

end Sturdy

/-! ## Steps -/

/-- The rules have lost, one after another, the tokens that hold a triple. -/
inductive Discards (t : Triple) (e : Engine MemoryGraph) : Engine MemoryGraph → Prop where
  | refl : Discards t e e
  | next {e₁ e' : Engine MemoryGraph} {rule : Nat} {c : CompiledRule} :
      Discards t e e₁ → e₁.network.rule? rule = some c → (e₁.cleared rule t).Recedes e' →
      e'.Backed → Discards t e e'

/-- What a piece of work comes to, whatever has become of the base. -/
inductive Works (rechecks : Nat) (e : Engine MemoryGraph) :
    Option Nat → Engine MemoryGraph → Prop where
  | late {t : Triple} {events : List Event} :
      e.events = .added t :: events →
      Works rechecks e (some rechecks) { e with events, state := .propagating }
  | entered {t : Triple} {events : List Event} {stats : EngineStats} {e' : Engine MemoryGraph} :
      e.events = .added t :: events →
      Enters t { e with events, state := .propagating, stats } e' →
      Works rechecks e (some rechecks) e'
  | back {t : Triple} {events : List Event} :
      e.events = .deleted t :: events →
      Works rechecks e (some rechecks) { e with events, state := .propagating }
  | left {t : Triple} {events : List Event} {stats : EngineStats} {e' : Engine MemoryGraph} :
      e.events = .deleted t :: events →
      Discards t { e with events, state := .propagating, stats } e' →
      Works rechecks e (some rechecks) e'
  | dealt {a : Activation} {agenda : List Activation} {e' : Engine MemoryGraph} :
      e.events = [] → e.agenda = a :: agenda →
      Dealt { e with agenda, state := .firing } a e' → Works rechecks e (some rechecks) e'
  | reviewed {t : Triple} {suspects : OrderedSet Triple} {e' : Engine MemoryGraph} :
      e.events = [] → e.agenda = [] → e.suspects.pop? = some (t, suspects) →
      Reviewed { e with suspects } e' t → Works rechecks e (some rechecks) e'
  | changed {stats : EngineStats} {asked : List Activation} {e' : Engine MemoryGraph} :
      e.Quiet → rechecks < e.maxRechecks → Reasked { e with stats } asked true e' →
      Works rechecks e (some (rechecks + 1)) e'
  | rested {stats : EngineStats} {world : World} :
      e.Quiet → Works rechecks e none { e with stats, world }

theorem Sturdy.discards {t : Triple} (he : e.Sturdy n) (h : e.Discards t e') : e'.Sturdy n := by
  induction h with
  | refl => exact he
  | next _ hc hrecedes hbacked ih => exact ih.retracts hc hrecedes hbacked

theorem Sturdy.worked {rechecks : Nat} {answer : Option Nat} (he : e.Sturdy n)
    (h : e.Works rechecks answer e') : e'.Sturdy n := by
  cases h with
  | late => exact he.of_agree rfl
  | entered _ henters => exact (he.of_agree rfl).enters henters
  | back => exact he.of_agree rfl
  | left _ hdiscards => exact (he.of_agree rfl).discards hdiscards
  | dealt _ _ hdealt => exact (he.of_agree rfl).dealt hdealt
  | reviewed _ _ _ hreviewed => exact (he.of_agree rfl).reviewed hreviewed
  | changed _ _ hreasked => exact (he.of_agree rfl).reasked hreasked
  | rested => exact he.of_agree rfl

theorem Works.quiet {rechecks : Nat} (h : e.Works rechecks none e') : e'.Quiet := by
  cases h with
  | rested hquiet => exact ⟨hquiet.events, hquiet.agenda, hquiet.suspects⟩

end Engine

namespace Work

variable {e : Engine MemoryGraph} {n : Network} {rechecks : Nat} {events : List Event}
  {t : Triple}

open Engine

theorem ends_follow_added (he : e.Sturdy n) (hevents : e.events = .added t :: events) :
    (propagate (.added t)).Ends { e with events, state := .propagating } fun _ e' =>
      e.Works rechecks (some rechecks) e' := by
  have horderly := he.orderly
  refine (ends_propagate_added (e := { e with events, state := .propagating })
    horderly.stocked horderly.sound horderly.wired t).mono ?_
  rintro _ e' (⟨_, rfl⟩ | ⟨stats, henters⟩)
  · exact .late hevents
  · exact .entered hevents henters

theorem ends_follow_deleted (he : e.Sturdy n) (hevents : e.events = .deleted t :: events) :
    (propagate (.deleted t)).Ends { e with events, state := .propagating } fun _ e' =>
      e.Works rechecks (some rechecks) e' := by
  unfold propagate
  rw [ends_bind, ends_isVisible]
  split
  · exact .back hevents
  · simp only [ends_bind, ends_count, ends_get]
    set e₀ : Engine MemoryGraph :=
      { e with events, state := .propagating, stats := { e.stats with events := e.stats.events + 1 } }
      with he₀
    have hstart : e₀.Sturdy n := he.of_agree rfl
    refine (ends_forM (fun rest e' => Discards t e₀ e' ∧
      ∀ r ∈ rest, ∃ c, n.rule? r = some c) ?_ _ ⟨.refl, ?_⟩).mono fun _ e' h => .left hevents h.1
    · rintro r rest e₁ ⟨hdiscards, hrest⟩
      have he₁ := hstart.discards hdiscards
      obtain ⟨c, hc⟩ := hrest r (List.mem_cons_self ..)
      rw [← he₁.network_eq] at hc
      refine (ends_retractTokens he₁.orderly.deductions he₁.orderly.stocked
        he₁.orderly.backed hc t).mono ?_
      rintro _ e₂ ⟨hrecedes, _, hbacked⟩
      exact ⟨.next hdiscards hc hrecedes hbacked, fun q hq => hrest q (List.mem_cons_of_mem _ hq)⟩
    · intro r hr
      rw [List.mem_eraseDups] at hr
      obtain ⟨s, hs, rfl⟩ := List.mem_map.1 hr
      have hrule := hstart.orderly.wired.rule_of_mem_activations hs
      rwa [hstart.network_eq] at hrule

/-- A step never fails. -/
theorem ends_step_of_sturdy (he : e.Sturdy n) (hn : n.Concrete) (rechecks : Nat) :
    (step rechecks).Ends e fun answer e' => e.Works rechecks answer e' := by
  unfold step
  rw [ends_bind, ends_get]
  split
  · rename_i event events hevents
    simp only [ends_bind, ends_set, ends_pure]
    cases event with
    | added t => exact ends_follow_added he hevents
    | deleted t => exact ends_follow_deleted he hevents
  · simp only [ends_bind, ends_set, ends_pure]
    rename_i a agenda hevents hagenda
    have hstart : Sturdy n { e with agenda, state := .firing } := he.of_agree rfl
    have hconcrete : e.network.Concrete := he.network_eq ▸ hn
    exact (ends_deal hstart.orderly hconcrete a).mono fun _ _ h => .dealt hevents hagenda h
  · simp only [ends_bind, ends_set, ends_pure]
    rename_i t suspects hevents hagenda hpop
    have hstart : Sturdy n { e with suspects } := he.of_agree rfl
    exact (ends_checkSupport hstart.orderly.deductions t).mono fun _ _ h =>
      .reviewed hevents hagenda hpop h
  · rename_i hevents hagenda hpop
    have hquiet : e.Quiet := ⟨hevents, hagenda, OrderedSet.pop?_eq_none_iff.1 hpop⟩
    split
    · exact .rested hquiet
    · rename_i hgoing
      rw [Bool.or_eq_true, decide_eq_true_eq, not_or] at hgoing
      simp only [ends_bind, ends_count]
      have hstart : Sturdy n { e with stats := { e.stats with rechecks := e.stats.rechecks + 1 } } :=
        he.of_agree rfl
      refine (ends_recheck hstart.orderly).mono ?_
      rintro changed e' ⟨asked, hasking, _⟩
      cases changed with
      | true => exact .changed hquiet (Nat.lt_of_not_le hgoing.2) hasking.reasked
      | false =>
          rw [hasking.reasked.unchanged.1]
          exact .rested hquiet

end Work

namespace Engine

variable {e e' : Engine MemoryGraph} {n : Network} {o : Operation} {rechecks : Nat}

/-! ## Operations -/

theorem sturdy_start (hwired : n.Wired) {base : MemoryGraph} (hbase : base.Sound) :
    (start n base).Sturdy n := by
  have hnone : ∀ a, (start n base).firing? a = none := by
    intro a
    rw [firing?, show (start n base).memory a.rule = .empty from
      Work.memory_reset (start n base) a.rule]
    rfl
  refine ⟨rfl, ⟨hwired, hbase, MemoryGraph.sound_empty,
    Work.stocked_reset (start n base), ?_⟩, ?_⟩
  · intro t a
    constructor
    · intro ha
      cases ha
    · rintro ⟨firing, hfiring, _⟩
      rw [hnone] at hfiring
      cases hfiring
  · intro a conclusions hidden committed ha
    rw [hnone] at ha
    cases ha

theorem Restarts.sturdy (h : e.Restarts e') (hwired : e.network.Wired) (hbase : e.base.Sound) :
    e'.Sturdy e.network where
  network_eq := h.network_eq
  orderly := by
    refine ⟨?_, ?_, ?_, h.stocked, h.backed⟩
    · rw [h.network_eq]
      exact hwired
    · rw [h.base_eq]
      exact hbase
    · rw [h.deductions_eq]
      exact MemoryGraph.sound_empty
  ground a _ _ _ ha := nomatch (h.waiting a _ ha).1

namespace Sturdy

theorem expanded (he : e.Sturdy n) {t : Triple} (ht : t.isGround = true) :
    (e.expanded t).Sturdy n :=
  he.shift rfl (he.orderly.base.plus ht) he.orderly.deductions

theorem reduced (he : e.Sturdy n) (t : Triple) : (e.reduced t).Sturdy n := by
  have hbase := he.orderly.base.minus t
  have hsound := he.orderly.deductions.minus t
  unfold Engine.reduced
  split
  · split
    · exact he.shift rfl hbase he.orderly.deductions
    · exact he.shift rfl hbase he.orderly.deductions
  · split
    · exact he.shift rfl hbase hsound
    · exact he.shift rfl hbase hsound

/-- A request is granted, unless it is to add a triple that is not ground. -/
theorem request (he : e.Sturdy n) (ho : o ≠ .close) :
    (∃ t, o = .add t ∧ t.isGround = false ∧
      o.request e = .error (.graph (.invalidTriple t)) e) ∨
    (∀ t, o = .add t → t.isGround = true) ∧ o.request.Ends e fun _ e' => e'.Sturdy n := by
  cases o with
  | recompute =>
      refine Or.inr ⟨(fun _ h => nomatch h), ?_⟩
      refine (Work.ends_restart he.orderly.base).mono fun _ _ h => ?_
      exact he.network_eq ▸ h.sturdy he.orderly.wired he.orderly.base
  | add t =>
      cases ht : t.isGround with
      | false =>
          refine Or.inl ⟨t, rfl, ht, ?_⟩
          change EStateM.bind (Work.addToBase t) _ e = _
          rw [EStateM.bind, Work.addToBase_of_not_ground ht]
      | true =>
          refine Or.inr ⟨fun _ h => Operation.add.inj h ▸ ht, ?_⟩
          refine (Work.ends_addToBase he.orderly.base ht).bind fun _ e₁ hadded => ?_
          obtain ⟨_, rfl⟩ := hadded
          exact he.expanded ht
  | delete t =>
      refine Or.inr ⟨(fun _ h => nomatch h), ?_⟩
      refine (Work.ends_deleteVisible he.orderly.base he.orderly.deductions t).bind
        fun _ e₁ hdeleted => ?_
      obtain ⟨_, rfl⟩ := hdeleted
      exact he.reduced t
  | announce event =>
      exact Or.inr ⟨(fun _ h => nomatch h), Work.ends_modify.2 (he.of_agree rfl)⟩
  | close => exact absurd rfl ho

/-- A run does not fail, and it ends with nothing under way. -/
theorem run (he : e.Sturdy n) (hn : n.Concrete) (budget rechecks : Nat) :
    e.run budget rechecks = .unfinished ∨
      ∃ e', e.run budget rechecks = .done () e' ∧ e'.Sturdy n ∧ e'.state = .idle := by
  induction budget generalizing rechecks e with
  | zero => exact Or.inl rfl
  | succ budget ih =>
      obtain ⟨answer, e₁, hstep, hworks⟩ := (Work.ends_step_of_sturdy he hn rechecks).exists_ok
      rw [Engine.run, hstep]
      cases answer with
      | some more => exact ih (he.worked hworks) more
      | none => exact Or.inr ⟨_, rfl, (he.worked hworks).of_agree rfl, rfl⟩

/-- An operation on an open engine fails only where it is to add a triple that is not
ground, and it changes nothing then. -/
theorem perform (he : e.Sturdy n) (hn : n.Concrete) (hopen : e.isClosed = false)
    (ho : o ≠ .close) (budget : Nat) :
    (∃ t, o = .add t ∧ t.isGround = false ∧
      o.perform budget e = .failed (.graph (.invalidTriple t)) e) ∨
    (∀ t, o = .add t → t.isGround = true) ∧ (o.perform budget e = .unfinished ∨
      ∃ e', o.perform budget e = .done () e' ∧ e'.Sturdy n ∧ e'.isClosed = false) := by
  rw [Operation.perform_eq ho]
  rcases he.request ho with ⟨t, hadd, ht, hrefused⟩ | ⟨hground, hgranted⟩
  · exact Or.inl ⟨t, hadd, ht, operate_of_error hopen hrefused⟩
  · refine Or.inr ⟨hground, ?_⟩
    obtain ⟨_, e₁, hrequest, he₁⟩ := hgranted.exists_ok
    rw [operate_of_ok hopen hrequest]
    rcases he₁.run hn budget 0 with hrun | ⟨e', hrun, he', hidle⟩
    · rw [hrun]
      exact Or.inl rfl
    · rw [hrun]
      exact Or.inr ⟨e', rfl, he', by rw [isClosed, hidle]; rfl⟩

end Sturdy

/-- Operations other than closing leave an engine open and what it relies on intact, even
if its base changes in between. -/
theorem Operated.sturdy (h : Operated n MemoryGraph.Reachable (· ≠ .close) e) (hwired : n.Wired)
    (hn : n.Concrete) : e.Sturdy n ∧ e.isClosed = false := by
  induction h with
  | start hbase => exact ⟨sturdy_start hwired hbase.sound, rfl⟩
  | performed _ ho hleaves ih =>
      rcases ih.1.perform hn ih.2 ho _ with ⟨t, _, _, hfailed⟩ | ⟨_, hunfinished | ⟨e', hdone, hpost⟩⟩
      · rw [hfailed] at hleaves
        exact Option.some.inj hleaves ▸ ih
      · rw [hunfinished] at hleaves
        cases hleaves
      · rw [hdone] at hleaves
        exact Option.some.inj hleaves ▸ hpost
  | rebased _ hbase ih => exact ⟨ih.1.shift rfl hbase.sound ih.1.orderly.deductions, ih.2⟩
  | logging _ ih => exact ⟨ih.1.of_agree rfl, ih.2⟩
  | settings _ ih => exact ⟨ih.1.of_agree rfl, ih.2⟩

/-- The engines between the steps of the runs that an operation on the engine may begin. -/
inductive Amid (e : Engine MemoryGraph) : Nat → Engine MemoryGraph → Prop where
  | begun {o : Operation} {e' : Engine MemoryGraph} :
      o ≠ .close → o.request e = .ok () e' → Amid e 0 e'
  | worked {rechecks more : Nat} {e₁ e' : Engine MemoryGraph} :
      Amid e rechecks e₁ → Work.step rechecks e₁ = .ok (some more) e' → Amid e more e'

theorem Amid.sturdy (h : e.Amid rechecks e') (he : e.Sturdy n) (hn : n.Concrete) :
    e'.Sturdy n := by
  induction h with
  | begun ho hrequest =>
      rcases he.request ho with ⟨_, _, _, hrefused⟩ | ⟨_, hgranted⟩
      · rw [hrequest] at hrefused
        cases hrefused
      · obtain ⟨_, e₁, hdone, he₁⟩ := hgranted.exists_ok
        rw [hrequest] at hdone
        cases hdone
        exact he₁
  | worked _ hwork ih =>
      obtain ⟨_, e₁, hdone, hworks⟩ := (Work.ends_step_of_sturdy ih hn _).exists_ok
      rw [hwork] at hdone
      cases hdone
      exact ih.worked hworks

/-- The books of an engine agree with each other: a token that is complete can be unified
with the patterns of its rule again, a firing supports all that it has concluded unless it
is committed, and it has concluded ground triples. -/
structure Kept (e : Engine MemoryGraph) : Prop where
  unified : ∀ a firing, e.firing? a = some firing →
    ∃ c b, e.network.rule? a.rule = some c ∧ c.bindings (e.matchedBy a) = .ok b
  supported : ∀ a conclusions hidden, e.firing? a = some (.fired conclusions hidden false) →
    ∀ t ∈ conclusions, a ∈ e.supporters t
  ground : ∀ a conclusions hidden committed,
    e.firing? a = some (.fired conclusions hidden committed) →
    ∀ t ∈ conclusions, t.isGround = true

theorem Sturdy.kept (he : e.Sturdy n) : e.Kept where
  unified a firing ha := by
    obtain ⟨c, hc, _⟩ := he.orderly.stocked.rule_of_firing ha
    obtain ⟨b, hb, _⟩ := he.orderly.stocked.bindings_eq hc ha
    exact ⟨c, b, hc, hb⟩
  supported a conclusions hidden ha t ht :=
    (he.orderly.backed t a).2
      ⟨_, ha, conclusions, hidden, rfl, List.any_eq_true.2 ⟨t, ht, BEq.rfl⟩⟩
  ground := he.ground

/-- Whatever the rules negate, remove, drop and hide and whatever their calls bind, and
even if others change the base, an engine stays open as long as nobody closes it, an
operation fails exactly where it is to add a triple that is not ground, which changes
nothing, and the books of the engine agree at every step. -/
theorem failed_iff {rules : List Rule} {registry : Registry}
    (hn : Network.compile rules registry = .ok n)
    (hbinds : ∀ name b, registry.get? name = some b → b.Binds)
    (h : Operated n MemoryGraph.Reachable (· ≠ .close) e) :
    e.isClosed = false ∧ e.Kept ∧ (∀ rechecks e', e.Amid rechecks e' → e'.Kept) ∧
      ∀ (o : Operation) budget cause e', o ≠ .close → (o.perform budget e = .failed cause e' ↔
        ∃ t, o = .add t ∧ t.isGround = false ∧ cause = .graph (.invalidTriple t) ∧ e' = e) := by
  obtain ⟨hwired, hregistry, _⟩ := Network.compile_eq_ok hn
  have hconcrete : n.Concrete := Network.concrete_of_binds
    (fun _ _ _ call _ b hb => (hbinds call.name b (hregistry ▸ hb)).1)
    fun _ _ _ call _ b hb => (hbinds call.name b (hregistry ▸ hb)).2
  obtain ⟨he, hopen⟩ := h.sturdy hwired hconcrete
  refine ⟨hopen, he.kept, fun _ _ hamid => (hamid.sturdy he hconcrete).kept, ?_⟩
  intro o budget cause e' ho
  rcases he.perform hconcrete hopen ho budget with
    ⟨t, rfl, ht, hfailed⟩ | ⟨hground, hunfinished | ⟨e₁, hdone, _⟩⟩
  · rw [hfailed]
    constructor
    · intro hsame
      cases hsame
      exact ⟨t, rfl, ht, rfl, rfl⟩
    · rintro ⟨u, hu, _, rfl, rfl⟩
      rw [Operation.add.inj hu]
  · rw [hunfinished]
    constructor
    · intro hsame
      cases hsame
    · rintro ⟨t, hadd, ht, _⟩
      rw [hground t hadd] at ht
      cases ht
  · rw [hdone]
    constructor
    · intro hsame
      cases hsame
    · rintro ⟨t, hadd, ht, _⟩
      rw [hground t hadd] at ht
      cases ht

/-- What is marked is dropped, and something is picked for it.  What is picked has an
owner. -/
def culling : List Rule :=
  [.make none [.pattern ⟨.var ⟨"x", 0⟩, .uri "marked", .var ⟨"y", 1⟩⟩]
      [.pattern ⟨.var ⟨"x", 0⟩, .uri "picked", .var ⟨"z", 2⟩⟩, .call ⟨"drop", [.integer 0]⟩]
      .forward,
    .make none [.pattern ⟨.var ⟨"x", 0⟩, .uri "picked", .var ⟨"y", 1⟩⟩]
      [.pattern ⟨.var ⟨"y", 1⟩, .uri "owner", .var ⟨"x", 0⟩⟩] .forward]

def cullingNetwork : Network :=
  ((Network.compile culling Registry.standard).toOption).getD default

/-- The engine after something marked was added. -/
def culled : Engine MemoryGraph :=
  ((Operation.add ⟨.uri "a", .uri "marked", .uri "b"⟩).perform 20
    (start cullingNetwork .empty)).state?.getD (start cullingNetwork .empty)

/-- Others have put something else into the base. -/
def disturbed : Engine MemoryGraph :=
  { culled with base := MemoryGraph.empty.plus ⟨.uri "c", .uri "marked", .uri "d"⟩ }

/-- What is to be added has a variable. -/
def unfit : Triple := ⟨.var ⟨"x", 0⟩, .uri "marked", .uri "b"⟩

theorem failed_iff_unfit :
    Operated cullingNetwork MemoryGraph.Reachable (· ≠ .close) disturbed ∧
      disturbed.isClosed = false ∧ disturbed.tokenCount = 2 ∧ disturbed.Kept ∧
      (∀ rechecks e', disturbed.Amid rechecks e' → e'.Kept) ∧
      (Operation.add unfit).perform 20 disturbed = .failed (.graph (.invalidTriple unfit)) disturbed := by
  have hn : Network.compile culling Registry.standard = .ok cullingNetwork :=
    ok_getD_of_isSome (by decide +kernel)
  have hculled : Operated cullingNetwork MemoryGraph.Reachable (· ≠ .close) culled :=
    .performed (.start .empty) (by simp) (Outcome.state?_eq_getD (by decide +kernel) _)
  have hdisturbed : Operated cullingNetwork MemoryGraph.Reachable (· ≠ .close) disturbed :=
    .rebased hculled (.add .empty (MemoryGraph.sound_empty.add_eq (by decide)))
  obtain ⟨hopen, hkept, hamid, hfailed⟩ := failed_iff hn Registry.binds_standard hdisturbed
  exact ⟨hdisturbed, hopen, by decide +kernel, hkept, hamid,
    (hfailed _ 20 _ _ (by simp)).2 ⟨unfit, rfl, by decide, rfl, rfl⟩⟩

end Engine

end Entailment
