import Entailment.Proofs.Forward.Closure
import Entailment.Proofs.Forward.Foundation
import Entailment.Proofs.Forward.Termination

/-!
# Maintaining the deductions of a changing base

An engine that has computed its deductions keeps them up to date while triples are added
to the base and deleted from it.  With rules whose heads are determined by their bodies,
whatever was added and deleted, the deductions are the least set that is closed under the
rules over the base as it is then.  Where nothing is negated this is what an engine that
starts over computes from that base.  Where something is, the calls are understood to be
asked in what is in view in the end, so that the view is a stable model of the rules.
-/

namespace Entailment

/-! ## Networks of elementary rules -/

/-- Every builtin that the body of the rule calls has one of those names. -/
def Rule.CallsOnly (r : Rule) (registry : Registry) (allowed : String → Prop) : Prop :=
  ∀ call, Clause.call call ∈ r.body → ∀ b, registry.get? call.name = some b → allowed b.name

theorem Rule.callsOnly_of_all {r : Rule} {registry : Registry} {allowed : String → Prop}
    [DecidablePred allowed] (h : ∀ call ∈ r.calls.map Prod.snd,
      (registry.get? call.name).all (fun b => decide (allowed b.name)) = true) :
    r.CallsOnly registry allowed := by
  intro call hcall b hb
  have hall := h call (mem_calls_iff.2 hcall)
  rw [hb] at hall
  exact of_decide_eq_true hall

namespace Network

variable {rules : List Rule} {n : Network}

theorem elementary_of_standard (hn : compile rules Registry.standard = .ok n)
    (helementary : ∀ rule ∈ rules, rule.Elementary)
    (hcalls : ∀ rule ∈ rules, rule.CallsOnly Registry.standard fun name =>
      name ∈ Builtin.graphFree ∨ name = Builtin.noValue.name) : n.Elementary where
  rule r c hc := by
    obtain ⟨rule, hrule, rfl⟩ := exists_rule_of_rule? hn hc
    refine ⟨helementary rule hrule, fun call hcall b hb => ?_⟩
    rw [(compile_eq_ok hn).2.1] at hb
    exact Builtin.fair_of_mem_standard (Registry.mem_standard hb) (hcalls rule hrule call hcall b hb)
  safe r c hc _ := by
    obtain ⟨rule, hrule, rfl⟩ := exists_rule_of_rule? hn hc
    intro call hcall b hb
    rw [(compile_eq_ok hn).2.1] at hb
    exact Builtin.safe_of_mem_standard (Registry.mem_standard hb) (hcalls rule hrule call hcall b hb)

theorem tame_of_elementary (hn : compile rules Registry.standard = .ok n)
    (helementary : ∀ rule ∈ rules, rule.Elementary) : n.Tame := by
  refine tame_of_standard hn fun rule hrule call hcall => ?_
  obtain ⟨h, hpattern, _⟩ := (helementary rule hrule).head _ hcall
  cases hpattern

theorem isMonotonic_of_standard (hn : compile rules Registry.standard = .ok n)
    (helementary : n.Elementary)
    (hcalls : ∀ rule ∈ rules, rule.CallsOnly Registry.standard (· ∈ Builtin.graphFree)) :
    n.isMonotonic = true := by
  refine List.all_eq_true.2 fun c hc => ?_
  obtain ⟨r, hr, rfl⟩ := List.getElem_of_mem hc
  have hrule : n.rule? r = some n.rules[r] := List.getElem?_eq_getElem hr
  have hdestructive := helementary.not_destructive (compile_eq_ok hn).1 hrule
  obtain ⟨rule, hmem, heq⟩ := exists_rule_of_rule? hn hrule
  have hnonMonotonic : n.rules[r].nonMonotonic = false := by
    rw [heq]
    refine List.any_eq_false.2 fun call hcall => ?_
    unfold CompiledRule.isNonMonotonic
    cases hb : Registry.standard.get? call.name with
    | none => exact Bool.false_ne_true
    | some b =>
        have hname := hcalls rule hmem call (Rule.mem_calls_iff.1 hcall) b hb
        have hmonotonic := (Builtin.impartial_of_graphFree CallContext.Like
          (Registry.mem_standard hb) hname).2
        rw [Bool.not_eq_true, Bool.not_eq_false']
        exact hmonotonic
  rw [CompiledRule.isMonotonic, hnonMonotonic, hdestructive]
  rfl

end Network

namespace Engine

variable {e e' : Engine MemoryGraph} {n : Network}

/-! ## Sequences of operations -/

/-- In the run that follows the request, activations are asked again less often than they
may be. -/
def Unhurried {α : Type} (request : Work MemoryGraph α) (e : Engine MemoryGraph) : Prop :=
  ∀ answer e₁ last e', request e = .ok answer e₁ → Runs 0 e₁ last e' → last < e₁.maxRechecks

/-- How often a run has asked activations again when it ends. -/
def lastRound : (budget : Nat) → (rechecks : Nat) → Engine MemoryGraph → Option Nat
  | 0, _, _ => none
  | budget + 1, rechecks, e =>
    match Work.step rechecks e with
    | .ok (some rechecks) e => lastRound budget rechecks e
    | .ok none _ => some rechecks
    | .error _ _ => none

theorem Runs.last_eq {rechecks last : Nat} (h : Runs rechecks e last e') {budget k : Nat}
    (hk : lastRound budget rechecks e = some k) : last = k := by
  induction h generalizing budget with
  | stop hstep =>
      cases budget with
      | zero => cases hk
      | succ budget =>
          rw [lastRound, hstep] at hk
          exact Option.some.inj hk
  | next hstep _ ih =>
      cases budget with
      | zero => cases hk
      | succ budget =>
          rw [lastRound, hstep] at hk
          exact ih hk

/-- The run after the request ends within the budget, and asks less often than it may. -/
def isUnhurried {α : Type} (budget : Nat) (request : Work MemoryGraph α)
    (e : Engine MemoryGraph) : Bool :=
  match request e with
  | .ok _ e₁ => (lastRound budget 0 e₁).any fun last => decide (last < e₁.maxRechecks)
  | .error _ _ => true

theorem unhurried_of_isUnhurried {α : Type} (budget : Nat) {request : Work MemoryGraph α}
    (h : isUnhurried budget request e = true) : e.Unhurried request := by
  intro answer e₁ last e' hrequest hruns
  rw [isUnhurried, hrequest] at h
  obtain ⟨k, hk, hlt⟩ := (Option.any_eq_true _ _).1 h
  rw [hruns.last_eq hk]
  exact of_decide_eq_true hlt

/-- The engines that come from an engine over the network that has computed its deductions,
when triples that are not nested are added to the base, and triples that are in the base
or out of view are deleted.  No run ends because activations were asked too often. -/
inductive Maintained (n : Network) : Engine MemoryGraph → Prop where
  | computed {e e' : Engine MemoryGraph} {budget : Nat} :
      e.network = n → e.base.Reachable →
      (∀ t, e.base.contains t = true → t.MadeOf fun m => m.isNested = false) →
      e.isClosed = false → (e.recompute budget).state? = some e' →
      (n.isMonotonic = true ∨ e.Unhurried Work.restart) → Maintained n e'
  | recomputed {e e' : Engine MemoryGraph} {budget : Nat} :
      Maintained n e → (e.recompute budget).state? = some e' →
      (n.isMonotonic = true ∨ e.Unhurried Work.restart) → Maintained n e'
  | added {e e' : Engine MemoryGraph} {budget : Nat} {t : Triple} :
      Maintained n e → t.MadeOf (fun m => m.isNested = false) →
      (e.add budget t).state? = some e' →
      (n.isMonotonic = true ∨ e.Unhurried (Work.addToBase t)) → Maintained n e'
  | deleted {e e' : Engine MemoryGraph} {budget : Nat} {t : Triple} :
      Maintained n e → e.base.contains t = true ∨ e.view.sees t = false →
      (e.delete budget t).state? = some e' →
      (n.isMonotonic = true ∨ e.Unhurried (Work.deleteVisible t)) → Maintained n e'
  | logging {e : Engine MemoryGraph} {on : Bool} : Maintained n e → Maintained n (e.setLogging on)
  | settings {e : Engine MemoryGraph} {traceFirings : Bool} {maxRechecks : Nat} {world : World} :
      Maintained n e → Maintained n { e with traceFirings, maxRechecks, world }

/-- What holds of such an engine between two operations. -/
structure Settling (n : Network) (e : Engine MemoryGraph) : Prop where
  steady : e.Steady
  quiet : e.Quiet
  diligent : e.Diligent fun m => m.isNested = false
  network_eq : e.network = n
  isOpen : e.isClosed = false
  upheld : n.isMonotonic = true ∨ ∀ a, e.Upheld a

/-- What a request leaves to be done. -/
structure Asked (n : Network) (e : Engine MemoryGraph) : Prop where
  steady : e.Steady
  diligent : e.Diligent fun m => m.isNested = false
  network_eq : e.network = n

namespace Asked

theorem settling (h : Asked n e) (helementary : n.Elementary) {last : Nat}
    (hruns : Runs 0 e last e') (hlast : n.isMonotonic = true ∨ last < e.maxRechecks) :
    Settling n e' := by
  have hP := helementary.spoken_flat
  rw [← h.network_eq] at helementary hP
  have hran := h.diligent.ran h.steady hP helementary hruns
  obtain ⟨hsteady, hquiet, hidle⟩ := hruns.steady h.steady
  have hnetwork := hran.setUpLike.network_eq.trans h.network_eq
  refine ⟨hsteady, hquiet, hran.diligent, hnetwork, ?_, ?_⟩
  · rw [isClosed, hidle]
    rfl
  · rw [← hnetwork]
    exact hran.upheld (by rwa [h.network_eq])

theorem base_eq (h : Asked n e) (helementary : n.Elementary) {last : Nat}
    (hruns : Runs 0 e last e') : e'.base = e.base := by
  have hP := helementary.spoken_flat
  rw [← h.network_eq] at helementary hP
  exact (h.diligent.ran h.steady hP helementary hruns).setUpLike.base_eq

theorem modest (h : Asked n e) (helementary : n.Elementary) : n.Modest := by
  obtain rfl := h.network_eq
  exact Network.modest_of_elementary helementary h.steady.consistent.wired h.steady.tame.concrete

end Asked

section Operating

variable {α : Type} {request : Work MemoryGraph α}

/-- An operation that is done has been asked for, and the run has come to its end. -/
theorem exists_runs_of_operate {base : MemoryGraph}
    (hends : request.Ends e fun _ e₁ => Asked n e₁ ∧ e₁.base = base)
    (hopen : e.isClosed = false) {budget : Nat}
    (h : (e.operate budget request).state? = some e') :
    ∃ a e₁ last, request e = .ok a e₁ ∧ Asked n e₁ ∧ e₁.base = base ∧ Runs 0 e₁ last e' := by
  obtain ⟨a, e₁, hdone, hasked, hbase⟩ := hends.exists_ok
  rw [operate_of_ok hopen hdone, Outcome.state?_map] at h
  rcases hasked.steady.run_cases budget 0 with hrun | ⟨last, e₂, hrun, hruns⟩
  · rw [hrun] at h
    cases h
  · rw [hrun] at h
    obtain rfl : e₂ = e' := Option.some.inj h
    exact ⟨a, e₁, last, hdone, hasked, hbase, hruns⟩

/-- An operation that is done leaves a settled engine, if it has not been cut short. -/
theorem settling_of_operate {base : MemoryGraph}
    (hends : request.Ends e fun _ e₁ => Asked n e₁ ∧ e₁.base = base)
    (helementary : n.Elementary) (hopen : e.isClosed = false) {budget : Nat}
    (h : (e.operate budget request).state? = some e')
    (hintime : n.isMonotonic = true ∨ e.Unhurried request) : Settling n e' := by
  obtain ⟨a, e₁, last, hdone, hasked, _, hruns⟩ := exists_runs_of_operate hends hopen h
  exact hasked.settling helementary hruns
    (hintime.imp_right fun hunhurried => hunhurried a e₁ last e' hdone hruns)

/-- With enough of a budget the operation is done, and leaves an engine as described. -/
def Completes (operation : Nat → Outcome (Engine MemoryGraph) α)
    (post : Engine MemoryGraph → Prop) : Prop :=
  ∃ needed, ∀ budget, needed ≤ budget → ∃ a e', operation budget = .done a e' ∧ post e'

theorem Completes.mono {operation : Nat → Outcome (Engine MemoryGraph) α}
    {post weaker : Engine MemoryGraph → Prop} (h : Completes operation post)
    (himp : ∀ e', post e' → weaker e') : Completes operation weaker := by
  obtain ⟨needed, hneeded⟩ := h
  refine ⟨needed, fun budget hbudget => ?_⟩
  obtain ⟨a, e', hdone, hpost⟩ := hneeded budget hbudget
  exact ⟨a, e', hdone, himp e' hpost⟩

theorem completes_of_ends {base : MemoryGraph} {most : Nat}
    (hends : request.Ends e fun _ e₁ => Asked n e₁ ∧ e₁.base = base)
    (hable : request.Ends e fun _ e₁ =>
      Able (fun m => m.isNested = false) n most e₁ ∧ (e₁.NoNews ∨ e₁.NoLoss))
    (helementary : n.Elementary) (hopen : e.isClosed = false) :
    Completes (fun budget => e.operate budget request) fun e' =>
      e'.base = base ∧ (n.isMonotonic = true → Settling n e') := by
  obtain ⟨a, e₁, hdone, hasked, hbase⟩ := hends.exists_ok
  obtain ⟨_, e₂, hdone₂, hable₂, hone⟩ := hable.exists_ok
  rw [hdone] at hdone₂
  cases hdone₂
  obtain ⟨needed, hneeded⟩ := hable₂.halts (hasked.modest helementary) hone
  refine ⟨needed, fun budget hbudget => ?_⟩
  obtain ⟨last, e', hrun, hruns⟩ := hneeded budget hbudget
  refine ⟨a, e', ?_, ?_, fun hmonotonic => hasked.settling helementary hruns (Or.inl hmonotonic)⟩
  · change e.operate budget request = _
    rw [operate_of_ok hopen hdone, hrun]
    rfl
  · exact (hasked.base_eq helementary hruns).trans hbase

end Operating

/-! ## Requests to a settled engine -/

theorem ends_restart_asked (hwired : n.Wired) (helementary : n.Elementary) (htame : n.Tame)
    (hnetwork : e.network = n) (hbase : e.base.Sound)
    (hflat : ∀ t, e.base.contains t = true → t.MadeOf fun m => m.isNested = false) :
    Work.restart.Ends e fun _ e₁ => Asked n e₁ ∧ e₁.base = e.base := by
  subst hnetwork
  refine (Work.ends_restart hbase).mono fun _ e₁ hrestarts => ⟨?_, hrestarts.base_eq⟩
  refine ⟨hrestarts.steady hwired (helementary.overt hwired).plain htame hbase,
    Diligent.restarted hrestarts hflat, hrestarts.network_eq⟩

/-- What has been concluded are instances of heads, which are ground. -/
theorem Diligent.sturdy {P : Node → Prop} (he : e.Diligent P) (hsteady : e.Steady)
    (helementary : e.network.Elementary) : e.Sturdy e.network where
  network_eq := rfl
  orderly := hsteady.consistent.orderly hsteady.backed
  ground a conclusions hidden committed ha t ht := by
    obtain ⟨c, hc, hlength, b, hb⟩ := hsteady.consistent.stocked.rule_of_firing ha
    obtain ⟨_, hproper⟩ := he.proper a c _ hc ha
    obtain ⟨p, hp, hfits⟩ := ((hproper b hb).2 t).1 (List.any_eq_true.2 ⟨t, ht, BEq.rfl⟩)
    have hvalues : ∀ i ∈ c.rule.boundIndexes, (b.assignment i).isGround = true := by
      intro i hi
      obtain ⟨m, hm, hground⟩ := hsteady.consistent.wired.values vocabulary_ground hc hb hlength
        (fun u hu => Triple.isGround_iff_nodes.1 (hb.isGround u hu)) i hi
      rw [Bindings.assignment, hm]
      exact hground
    have hmade := (helementary.rule a.rule c hc).1.madeOf_head vocabulary_ground
      (fun _ _ _ _ hground => hground) hvalues hp hfits
    exact Triple.isGround_iff_nodes.2 hmade

namespace Settling

theorem flat (h : Settling n e) :
    ∀ t, e.base.contains t = true → t.MadeOf fun m => m.isNested = false := by
  intro t ht
  refine h.diligent.madeOf t ?_
  change (e.base.contains t || e.deductions.contains t) = true
  rw [ht, Bool.true_or]

theorem ends_restart (h : Settling n e) (helementary : n.Elementary) :
    Work.restart.Ends e fun _ e₁ => Asked n e₁ ∧ e₁.base = e.base := by
  have hconsistent := h.steady.consistent
  have htame := h.steady.tame
  obtain rfl := h.network_eq
  exact ends_restart_asked hconsistent.wired helementary htame rfl hconsistent.base h.flat

theorem ends_add (h : Settling n e) {t : Triple} (ht : t.isGround = true)
    (hflat : t.MadeOf fun m => m.isNested = false) :
    (Work.addToBase t).Ends e fun _ e₁ => Asked n e₁ ∧ e₁.base = e.base.plus t := by
  refine (Work.ends_addToBase h.steady.consistent.base ht).mono ?_
  rintro _ _ ⟨_, rfl⟩
  exact ⟨⟨h.steady.expanded ht,
    h.diligent.expanded h.steady h.quiet vocabulary_not_nested ht hflat, h.network_eq⟩, rfl⟩

theorem ends_delete (h : Settling n e) {t : Triple}
    (ht : e.base.contains t = true ∨ e.view.sees t = false) :
    (Work.deleteVisible t).Ends e fun _ e₁ => Asked n e₁ ∧ e₁.base = e.base.minus t := by
  have hconsistent := h.steady.consistent
  refine (Work.ends_deleteVisible hconsistent.base hconsistent.deductions t).mono ?_
  rintro _ _ ⟨_, rfl⟩
  refine ⟨?_, by unfold reduced; split <;> split <;> rfl⟩
  refine ⟨h.steady.reduced t, h.diligent.reduced h.steady h.quiet ht, ?_⟩
  rw [← h.network_eq]
  unfold reduced
  split <;> split <;> rfl

/-- While nothing waits, all tokens stand for triples in view. -/
theorem able (h : Settling n e) (helementary : n.Elementary) :
    Able (fun m => m.isNested = false) n e.maxRechecks e := by
  obtain rfl := h.network_eq
  refine ⟨h.diligent.sturdy h.steady helementary, rfl, h.diligent.madeOf, fun r id token hid => ?_⟩
  rcases h.steady.consistent.covered r id token hid with hseen | hgone | hfalse
  · exact h.diligent.madeOf _ hseen
  · exact absurd hgone (not_announced_of_events h.quiet.events _)
  · exact hfalse.elim

end Settling

/-! ## Operations that are done -/

theorem completes_recompute (hwired : n.Wired) (helementary : n.Elementary) (htame : n.Tame)
    (hnetwork : e.network = n) (hbase : e.base.Sound)
    (hflat : ∀ t, e.base.contains t = true → t.MadeOf fun m => m.isNested = false)
    (hopen : e.isClosed = false) : Completes (fun budget => e.recompute budget) fun e' =>
      e'.base = e.base ∧ (n.isMonotonic = true → Settling n e') :=
  completes_of_ends (ends_restart_asked hwired helementary htame hnetwork hbase hflat)
    (ends_restart_able hnetwork hwired hbase hflat) helementary hopen

theorem Settling.completes_add (h : Settling n e) (helementary : n.Elementary) {t : Triple}
    (ht : t.isGround = true) (hflat : t.MadeOf fun m => m.isNested = false) :
    Completes (fun budget => e.add budget t) fun e' =>
      e'.base = e.base.plus t ∧ (n.isMonotonic = true → Settling n e') :=
  completes_of_ends (h.ends_add ht hflat)
    ((h.able helementary).ends_add vocabulary_not_nested h.quiet.events ht hflat) helementary
    h.isOpen

theorem Settling.completes_delete (h : Settling n e) (helementary : n.Elementary) {t : Triple}
    (ht : e.base.contains t = true ∨ e.view.sees t = false) :
    Completes (fun budget => e.delete budget t) fun e' =>
      e'.base = e.base.minus t ∧ (n.isMonotonic = true → Settling n e') :=
  completes_of_ends (h.ends_delete ht) ((h.able helementary).ends_delete h.quiet.events t)
    helementary h.isOpen

theorem Settling.of_agree (h : Settling n e)
    (hagree : e' = { e with
      derivations := e'.derivations
      logging := e'.logging
      traceFirings := e'.traceFirings
      maxRechecks := e'.maxRechecks
      world := e'.world }) : Settling n e' where
  steady := h.steady.of_agree (by rw [hagree])
  quiet := by
    rw [hagree]
    exact ⟨h.quiet.events, h.quiet.agenda, h.quiet.suspects⟩
  diligent := by
    rw [hagree]
    exact h.diligent.requeue (fun t ht _ => ht) (fun a ha _ => ha)
      fun a t hastray => absurd hastray (h.diligent.prudent.not_astray h.steady h.quiet a t)
  network_eq := by
    rw [hagree]
    exact h.network_eq
  isOpen := by
    rw [hagree]
    exact h.isOpen
  upheld := h.upheld.imp_right fun hupheld a => by
    rw [hagree]
    exact hupheld a

theorem Maintained.settling (h : Maintained n e) (hwired : n.Wired) (helementary : n.Elementary)
    (htame : n.Tame) : Settling n e := by
  induction h with
  | computed hnetwork hbase hflat hopen hleaves hintime =>
      have hends := ends_restart_asked hwired helementary htame hnetwork hbase.sound hflat
      exact settling_of_operate hends helementary hopen hleaves hintime
  | recomputed _ hleaves hintime ih =>
      exact settling_of_operate (ih.ends_restart helementary) helementary ih.isOpen hleaves hintime
  | @added e e' budget t _ hflat hleaves hintime ih =>
      cases ht : t.isGround with
      | true =>
          exact settling_of_operate (ih.ends_add ht hflat) helementary ih.isOpen hleaves hintime
      | false =>
          have hrefused := Work.addToBase_of_not_ground (e := e) ht
          rw [add, operate_of_error ih.isOpen hrefused] at hleaves
          exact Option.some.inj hleaves ▸ ih
  | deleted _ ht hleaves hintime ih =>
      exact settling_of_operate (ih.ends_delete ht) helementary ih.isOpen hleaves hintime
  | logging _ ih => exact ih.of_agree rfl
  | settings _ ih => exact ih.of_agree rfl

/-! ## The deductions -/

variable {rules : List Rule}

/-- With negation the deductions are the least set that is closed under the rules when
their calls are asked in the view that they make up together with the base. -/
theorem Settling.isLeast (h : Settling n e) (hn : Network.compile rules Registry.standard = .ok n)
    (helementary : n.Elementary) {v : View MemoryGraph}
    (hv : n.isMonotonic = true ∨ v = e.view) :
    IsLeast {S : Set Triple | Closed rules Registry.standard e.base v S}
      {t | e.deductions.contains t = true} := by
  obtain ⟨_, hregistry, hrules⟩ := Network.compile_eq_ok hn
  obtain rfl := h.network_eq
  have hsettled : e.Settled v := by
    rcases hv with hmonotonic | rfl
    · exact Or.inl hmonotonic
    · exact h.upheld.imp_right fun hupheld => ⟨rfl, hupheld⟩
  rw [← hregistry] at hrules ⊢
  exact h.diligent.isLeast h.steady h.quiet helementary hsettled hrules

/-- Incremental maintenance computes what starting over computes. -/
theorem deductions_of_maintained (hn : Network.compile rules Registry.standard = .ok n)
    (hrules : ∀ rule ∈ rules, rule.Elementary)
    (hcalls : ∀ rule ∈ rules, rule.CallsOnly Registry.standard (· ∈ Builtin.graphFree))
    (h : Maintained n e) :
    (∀ v : View MemoryGraph,
      IsLeast {S : Set Triple | Closed rules Registry.standard e.base v S}
        {t | e.deductions.contains t = true}) ∧
    (∀ fresh : Engine MemoryGraph,
      fresh.network = n → fresh.base = e.base → fresh.isClosed = false →
      Completes (fun budget => fresh.recompute budget) fun f =>
        ∀ t, f.deductions.contains t = e.deductions.contains t) ∧
    (∀ t, t.isGround = true → t.MadeOf (fun m => m.isNested = false) →
      Completes (fun budget => e.add budget t) fun e' => e'.base = e.base.plus t) ∧
    ∀ t, e.base.contains t = true ∨ e.view.sees t = false →
      Completes (fun budget => e.delete budget t) fun e' => e'.base = e.base.minus t := by
  have hwired := (Network.compile_eq_ok hn).1
  have htame := Network.tame_of_elementary hn hrules
  have helementary := Network.elementary_of_standard hn hrules fun rule hrule call hcall b hb =>
    Or.inl (hcalls rule hrule call hcall b hb)
  have hmonotonic := Network.isMonotonic_of_standard hn helementary hcalls
  have hsettling := h.settling hwired helementary htame
  have hleast := fun v => hsettling.isLeast hn helementary (v := v) (Or.inl hmonotonic)
  refine ⟨hleast, ?_, ?_, ?_⟩
  · intro fresh hnetwork hbase hopen
    refine (completes_recompute hwired helementary htame hnetwork
      (hbase ▸ hsettling.steady.consistent.base) (hbase ▸ hsettling.flat) hopen).mono ?_
    rintro f ⟨hsame, hf⟩ t
    have hleast' := (hf hmonotonic).isLeast hn helementary (v := e.view) (Or.inl hmonotonic)
    rw [hsame, hbase] at hleast'
    exact Bool.eq_iff_iff.2 (Set.ext_iff.1 (hleast'.unique (hleast e.view)) t)
  · exact fun t ht hflat => (hsettling.completes_add helementary ht hflat).mono fun _ h => h.1
  · exact fun t ht => (hsettling.completes_delete helementary ht).mono fun _ h => h.1

/-- Whatever is linked one way to something else is linked the other way. -/
def crossing : Rule :=
  .make none
    [.pattern ⟨.var ⟨"x", 0⟩, .uri "p", .var ⟨"y", 1⟩⟩,
      .call ⟨"notEqual", [.var ⟨"x", 0⟩, .var ⟨"y", 1⟩]⟩]
    [.pattern ⟨.var ⟨"y", 1⟩, .uri "p", .var ⟨"x", 0⟩⟩] .forward

def crossNetwork : Network :=
  ((Network.compile [crossing] Registry.standard).toOption).getD default

/-- The engine that has started without facts, after a link was added. -/
def crossed : Engine MemoryGraph :=
  let e := start crossNetwork .empty
  let e := (e.recompute 20).state?.getD e
  (e.add 20 link).state?.getD e

theorem compile_crossing : Network.compile [crossing] Registry.standard = .ok crossNetwork :=
  ok_getD_of_isSome (by decide +kernel)

theorem elementary_crossing : crossing.Elementary :=
  Rule.elementary_of_heads ⟨_, _, _, rfl⟩ (by decide +kernel) (by decide +kernel)

theorem callsOnly_crossing :
    crossing.CallsOnly Registry.standard (· ∈ Builtin.graphFree) :=
  Rule.callsOnly_of_all (by decide +kernel)

theorem maintained_crossed : Maintained crossNetwork crossed := by
  refine .added (.computed (e := start crossNetwork .empty) rfl .empty ?_ rfl
    (Outcome.state?_eq_getD (by decide +kernel) _) (Or.inl (by decide +kernel))) ?_
    (Outcome.state?_eq_getD (by decide +kernel) _) (Or.inl (by decide +kernel))
  · intro t ht
    rw [show (start crossNetwork MemoryGraph.empty).base.contains t = false from
      MemoryGraph.contains_empty t] at ht
    cases ht
  · show ∀ m ∈ link.nodes, m.isNested = false
    decide +kernel

theorem deductions_crossed : crossed.deductions.contains backlink = true ∧
    IsLeast {S : Set Triple | Closed [crossing] Registry.standard crossed.base crossed.view S}
      {t | crossed.deductions.contains t = true} := by
  refine ⟨by decide +kernel, (deductions_of_maintained compile_crossing ?_ ?_
    maintained_crossed).1 _⟩
  · intro rule hrule
    obtain rfl := List.mem_singleton.1 hrule
    exact elementary_crossing
  · intro rule hrule
    obtain rfl := List.mem_singleton.1 hrule
    exact callsOnly_crossing

example : ((crossed.delete 20 link).state?.getD crossed).deductions.size = 0 := by decide +kernel

/-- The view that an engine with negation settles on is a stable model of the rules. -/
theorem stable_of_maintained (hn : Network.compile rules Registry.standard = .ok n)
    (hrules : ∀ rule ∈ rules, rule.Elementary)
    (hcalls : ∀ rule ∈ rules, rule.CallsOnly Registry.standard fun name =>
      name ∈ Builtin.graphFree ∨ name = Builtin.noValue.name)
    (h : Maintained n e) :
    IsLeast {S : Set Triple | Closed rules Registry.standard e.base e.view S}
      {t | e.deductions.contains t = true} := by
  have helementary := Network.elementary_of_standard hn hrules hcalls
  exact (h.settling (Network.compile_eq_ok hn).1 helementary
    (Network.tame_of_elementary hn hrules)).isLeast hn helementary (Or.inr rfl)

/-- A bird can fly unless it is known to be a penguin. -/
def flying : Rule :=
  .make none
    [.pattern ⟨.var ⟨"x", 0⟩, .uri "isA", .uri "Bird"⟩,
      .call ⟨"noValue", [.var ⟨"x", 0⟩, .uri "isA", .uri "Penguin"]⟩]
    [.pattern ⟨.var ⟨"x", 0⟩, .uri "can", .uri "Fly"⟩] .forward

def flightNetwork : Network :=
  ((Network.compile [flying] Registry.standard).toOption).getD default

def aBird (name : String) : Triple := ⟨.uri name, .uri "isA", .uri "Bird"⟩

def aPenguin (name : String) : Triple := ⟨.uri name, .uri "isA", .uri "Penguin"⟩

def canFly (name : String) : Triple := ⟨.uri name, .uri "can", .uri "Fly"⟩

/-- The engine that has started without facts, after two birds were added, one of which
is known to be a penguin. -/
def aviary : Engine MemoryGraph :=
  let e := start flightNetwork .empty
  let e := (e.recompute 20).state?.getD e
  let e := (e.add 20 (aPenguin "opus")).state?.getD e
  let e := (e.add 20 (aBird "opus")).state?.getD e
  (e.add 20 (aBird "tweety")).state?.getD e

theorem compile_flying : Network.compile [flying] Registry.standard = .ok flightNetwork :=
  ok_getD_of_isSome (by decide +kernel)

theorem elementary_flying : flying.Elementary :=
  Rule.elementary_of_heads ⟨_, _, _, rfl⟩ (by decide +kernel) (by decide +kernel)

theorem callsOnly_flying : flying.CallsOnly Registry.standard fun name =>
    name ∈ Builtin.graphFree ∨ name = Builtin.noValue.name :=
  Rule.callsOnly_of_all (by decide +kernel)

theorem Maintained.added_bounded {e : Engine MemoryGraph} {budget : Nat} {t : Triple}
    (h : Maintained n e) (hflat : ∀ m ∈ t.nodes, m.isNested = false)
    (hdone : (e.add budget t).state?.isSome = true)
    (hintime : isUnhurried budget (Work.addToBase t) e = true) :
    Maintained n ((e.add budget t).state?.getD e) :=
  .added h hflat (Outcome.state?_eq_getD hdone e) (Or.inr (unhurried_of_isUnhurried budget hintime))

theorem maintained_aviary : Maintained flightNetwork aviary := by
  refine .added_bounded (.added_bounded (.added_bounded (.computed
    (e := start flightNetwork .empty) rfl .empty ?_ rfl
    (Outcome.state?_eq_getD (by decide +kernel) _)
    (Or.inr (unhurried_of_isUnhurried 20 (by decide +kernel))))
    ?_ ?_ ?_) ?_ ?_ ?_) ?_ ?_ ?_
  · intro t ht
    rw [show (start flightNetwork MemoryGraph.empty).base.contains t = false from
      MemoryGraph.contains_empty t] at ht
    cases ht
  all_goals decide +kernel

theorem stable_aviary : aviary.deductions.contains (canFly "tweety") = true ∧
    aviary.deductions.contains (canFly "opus") = false ∧
    IsLeast {S : Set Triple | Closed [flying] Registry.standard aviary.base aviary.view S}
      {t | aviary.deductions.contains t = true} := by
  refine ⟨by decide +kernel, by decide +kernel, stable_of_maintained
    compile_flying ?_ ?_ maintained_aviary⟩
  · intro rule hrule
    obtain rfl := List.mem_singleton.1 hrule
    exact elementary_flying
  · intro rule hrule
    obtain rfl := List.mem_singleton.1 hrule
    exact callsOnly_flying

/-- What is learned later takes the conclusion back. -/
example : ((aviary.add 20 (aPenguin "tweety")).state?.getD aviary).deductions.size = 0 := by
  decide +kernel

end Engine

end Entailment
