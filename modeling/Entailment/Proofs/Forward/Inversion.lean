import Entailment.Proofs.Forward.Attribution

/-!
# Support inverts firings

Where no head removes anything, the firings that stand are those that have not been taken
back, and each holds up exactly what it has concluded.  What is deduced is held up.  The
converse needs that a token goes with the triples that it holds: a conclusion that is
withdrawn keeps its supporters until they have lost what they had matched.
-/

namespace Entailment

/-! ## The number of firings -/

namespace Firing

def isFired : Firing → Bool
  | .fired _ _ _ => true
  | _ => false

end Firing

/-- Every firing counts once. -/
def Tally.firing : Tally where
  weight firing := if firing.isFired then 1 else 0
  noted _ firings := firings
  returned retractions := retractions
  weight_pending := rfl
  weight_blocked := rfl
  noted_fired _ _ _ _ _ := rfl
  returned_retracted _ _ _ _ _ _ := Nat.add_assoc ..
  noted_none := rfl

/-- Where nothing is committed, all firings are counted. -/
theorem Tally.spares_firing {n : Network} (h : ∀ c ∈ n.rules, c.destructive = false) :
    Tally.firing.Spares n := by
  intro c hc hdestructive
  rw [h c hc] at hdestructive
  cases hdestructive

namespace Engine

variable {γ : Type}

/-- The number of firings that stand. -/
def firedCount (e : Engine γ) : Nat :=
  (e.memories.map fun m => m.firings.entries.countP fun x => x.2.isFired).sum

theorem total_firing (e : Engine γ) : e.total Tally.firing.weight = e.firedCount := by
  have hcount : ∀ entries : List (TokenId × Firing),
      (entries.map fun x => Tally.firing.weight x.2).sum = entries.countP fun x => x.2.isFired := by
    intro entries
    induction entries with
    | nil => rfl
    | cons x entries ih =>
        rw [List.map_cons, List.sum_cons, ih, List.countP_cons, Nat.add_comm]
        rfl
  rw [total, firedCount]
  congr 2
  funext m
  exact hcount m.firings.entries

variable [Graph γ] {n : Network} {sane : γ → Prop} {allowed : Operation → Prop} {e : Engine γ}

/-- Whatever has been done, the firings that stand are those that were not taken back. -/
theorem Operated.firings_eq (h : Operated n sane allowed e)
    (hn : ∀ c ∈ n.rules, c.destructive = false) :
    e.stats.firings = e.stats.retractions + e.firedCount := by
  obtain ⟨lost, hnoted, hlost⟩ := h.noted_eq .firing
  rw [hlost (Tally.spares_firing hn), total_firing] at hnoted
  exact hnoted

/-! ## Commitments -/

/-- No rule commits its conclusions, and none is committed. -/
structure Uncommitted (e : Engine γ) : Prop where
  sparing : ∀ c ∈ e.network.rules, c.destructive = false
  committed : ∀ t, e.committed.contains t = false

end Engine

namespace Work

open Engine

variable {γ : Type}

theorem ofBooks_uncommitted : OfBooks (Uncommitted : Engine γ → Prop) := by
  intro e e' h he
  have hnetwork : e'.network = e.network := congrArg Books.network h
  have hcommitted : e'.committed = e.committed := congrArg Books.committed h
  exact ⟨hnetwork ▸ he.sparing, hcommitted ▸ he.committed⟩

theorem keeps_credit_uncommitted (a : Activation) {c : CompiledRule} (hc : c.destructive = false)
    (matched : List (Option Triple)) (t : Triple) :
    Keeps Uncommitted (credit a c matched t : Work γ Unit) := by
  refine keeps_modify fun e he => ?_
  rw [hc]
  simp only [Bool.false_eq_true, if_false]
  split <;> exact ⟨he.sparing, he.committed⟩

variable [Graph γ]

theorem enduring_uncommitted :
    Enduring (fun c => c.destructive = false) (Uncommitted : Engine γ → Prop) where
  kinds he := he.sparing
  ofConclusions he hnetwork _ _ hcommitted := ⟨hnetwork ▸ he.sparing, hcommitted ▸ he.committed⟩
  retracted t he := by
    refine ((ofBooks_uncommitted.ofCounts.retractDeduction t).leaves he).mono fun _ e' he' => ?_
    refine ⟨he', he'.sparing, fun u => ?_⟩
    rw [OrderedSet.contains_erase, he'.committed, Bool.false_and]
  unsupport a c matched t := by
    have hbeside : BesideSupport (Uncommitted : Engine γ → Prop) :=
      fun _ _ _ _ he => ⟨he.sparing, he.committed⟩
    exact hbeside.unsupport (ofBooks_uncommitted.ofCounts.withdraw t) a c matched
  draw a c matched t hc := keeps_bind (keeps_credit_uncommitted a hc matched t) fun _ =>
    ofBooks_uncommitted.ofCounts.assert t

end Work

namespace Engine

variable {γ : Type} [Graph γ] {n : Network} {sane : γ → Prop} {allowed : Operation → Prop}
  {e : Engine γ}

theorem Operated.uncommitted (h : Operated n sane allowed e)
    (hn : ∀ c ∈ n.rules, c.destructive = false) (t : Triple) : e.committed.contains t = false := by
  rcases h.endures Work.enduring_uncommitted (fun base => ⟨hn, OrderedSet.contains_empty⟩)
    (fun e he => ⟨he.sparing, OrderedSet.contains_empty⟩) with huncommitted | hsilent
  · exact huncommitted.committed t
  · rw [hsilent.committed_eq]
    exact OrderedSet.contains_empty t

/-- Whatever has been done, what is deduced has supporters, if nothing is committed. -/
theorem Operated.contains_support (h : Operated n sane allowed e)
    (hn : ∀ c ∈ n.rules, c.destructive = false) {t : Triple}
    (ht : e.deductions.contains t = true) : e.support.contains t = true := by
  refine (h.attributed.contains_support_iff t).2 ((h.attributed.held t ht).resolve_right ?_)
  rw [h.uncommitted hn]
  exact Bool.false_ne_true

/-! ## Firings and supporters -/

/-- Where nothing is committed, an activation supports what it has concluded and nothing
else. -/
theorem Operated.mem_supporters_iff {e : Engine MemoryGraph}
    (h : Operated n MemoryGraph.Reachable (· ≠ .close) e) (hwired : n.Wired)
    (hconcrete : n.Concrete) (hn : ∀ c ∈ n.rules, c.destructive = false) (t : Triple) (a : Activation) :
    a ∈ e.supporters t ↔ ∃ conclusions hidden committed,
      e.firing? a = some (.fired conclusions hidden committed) ∧
        conclusions.any (· == t) = true := by
  obtain ⟨hsturdy, _⟩ := h.sturdy hwired hconcrete
  rw [hsturdy.orderly.backed t a]
  constructor
  · rintro ⟨_, ha, conclusions, hidden, rfl, ht⟩
    exact ⟨conclusions, hidden, false, ha, ht⟩
  · rintro ⟨conclusions, hidden, committed, ha, ht⟩
    obtain ⟨c, hc, _⟩ := hsturdy.orderly.stocked.rule_of_firing ha
    obtain ⟨_, rfl⟩ := (hsturdy.orderly.stocked.2 a.rule).fired c hc _ _ _ _ ha
    rw [hsturdy.network_eq] at hc
    rw [hn c (List.mem_of_getElem? hc)] at ha
    exact ⟨_, ha, conclusions, hidden, rfl, ht⟩

end Engine

/-! ## Histories -/

namespace Network

variable {rules : List Rule} {n : Network}

/-- No rule is destructive whose head calls monotonic builtins only. -/
theorem destructive_eq_false {registry : Registry} (hn : compile rules registry = .ok n)
    (hsparing : ∀ rule ∈ rules, rule.Sparing registry) : ∀ c ∈ n.rules, c.destructive = false := by
  intro c hc
  obtain ⟨_, _, hrules⟩ := compile_eq_ok hn
  rw [hrules] at hc
  obtain ⟨rule, hrule, rfl⟩ := List.mem_map.1 hc
  exact CompiledRule.destructive_eq_false_iff.2 (hsparing rule hrule)

end Network

namespace Engine

variable {n : Network} {e : Engine MemoryGraph}

/-- The engines that computing, adding and deleting lead to, where nothing is deleted that is
only deduced and the base changes in no other way. -/
inductive Handled (n : Network) : Engine MemoryGraph → Prop where
  | start {base : MemoryGraph} : base.Reachable → Handled n (.start n base)
  | recomputed {e e' : Engine MemoryGraph} {budget : Nat} :
      Handled n e → (e.recompute budget).state? = some e' → Handled n e'
  | added {e e' : Engine MemoryGraph} {budget : Nat} {t : Triple} :
      Handled n e → (e.add budget t).state? = some e' → Handled n e'
  | deleted {e e' : Engine MemoryGraph} {budget : Nat} {t : Triple} :
      Handled n e → e.base.contains t = true ∨ e.view.sees t = false →
      (e.delete budget t).state? = some e' → Handled n e'
  | logging {e : Engine MemoryGraph} {on : Bool} : Handled n e → Handled n (e.setLogging on)
  | settings {e : Engine MemoryGraph} {traceFirings : Bool} {maxRechecks : Nat} {world : World} :
      Handled n e → Handled n { e with traceFirings, maxRechecks, world }

namespace Handled

theorem reached (h : Handled n e) : Reached n e := by
  induction h with
  | start hbase => exact .start hbase
  | recomputed _ hleaves ih => exact ih.recomputed hleaves
  | added _ hleaves ih => exact ih.added hleaves
  | deleted _ _ hleaves ih => exact ih.deleted hleaves
  | logging _ ih => exact ih.logging
  | settings _ ih => exact ih.settings

theorem operated (h : Handled n e) : Operated n MemoryGraph.Reachable (· ≠ .close) e := by
  induction h with
  | start hbase => exact .start hbase
  | @recomputed _ _ budget _ hleaves ih =>
      exact ih.performed (o := .recompute) (by simp) hleaves
  | @added e₀ e₁ budget t _ hleaves ih =>
      have hdone : ((Operation.add t).perform budget e₀).state? = some e₁ :=
        (Outcome.state?_map _ _).trans hleaves
      exact ih.performed (by simp) hdone
  | @deleted e₀ e₁ budget t _ _ hleaves ih =>
      have hdone : ((Operation.delete t).perform budget e₀).state? = some e₁ :=
        (Outcome.state?_map _ _).trans hleaves
      exact ih.performed (by simp) hdone
  | logging _ ih => exact ih.logging
  | settings _ ih => exact ih.settings

/-- Where heads remove nothing, the engine stays prudent. -/
theorem prudent (h : Handled n e) (hwired : n.Wired) (hplain : n.Plain) (htame : n.Tame)
    (hmild : n.Mild) : e.Prudent := by
  have hpreserved : Preserved fun e => e.network = n ∧ e.Prudent := by
    refine ⟨fun hsteady he hstep => ?_, fun hsteady hquiet he => ⟨he.1, ?_⟩⟩
    · have hstepped := hsteady.stepped hstep
      exact ⟨hstepped.network_eq.trans he.1, he.2.stepped hsteady (he.1 ▸ hmild) hstepped⟩
    · exact he.2.requeue fun a t hastray => absurd hastray (he.2.not_astray hsteady hquiet a t)
  suffices hboth : e.network = n ∧ e.Prudent from hboth.2
  induction h with
  | @start base hbase =>
      refine ⟨rfl, fun t ht => ?_, fun t ht => ?_, fun a t => ?_⟩
      · cases ht
      · cases ht
      · rintro ⟨⟨firing, ha, _⟩, _⟩
        have hmemory : (Engine.start n base).memory a.rule = .empty :=
          Work.memory_reset (Engine.start n base) a.rule
        rw [firing?, hmemory] at ha
        cases ha
  | recomputed hhandled hleaves ih =>
      refine hpreserved.recomputed ih (hhandled.reached.resting hwired hplain htame)
        (fun e₁ _ hrestarts => ?_) hleaves
      exact ⟨hrestarts.network_eq.trans ih.1, .restarted hrestarts⟩
  | @added _ _ _ t hhandled hleaves ih =>
      have hresting := hhandled.reached.resting hwired hplain htame
      have hnone := ih.2.not_astray hresting.steady hresting.quiet
      exact hpreserved.added ih hresting (fun _ => ⟨ih.1, ih.2.expanded hnone t⟩) hleaves
  | @deleted e₀ _ _ t hhandled hkept hleaves ih =>
      have hresting := hhandled.reached.resting hwired hplain htame
      have hnone := ih.2.not_astray hresting.steady hresting.quiet
      have hnetwork : (e₀.reduced t).network = e₀.network := by
        unfold reduced
        split <;> split <;> rfl
      exact hpreserved.deleted ih hresting ⟨hnetwork.trans ih.1,
        ih.2.reduced hresting.steady.consistent.deductions hnone hkept⟩ hleaves
  | logging hhandled ih =>
      have hresting := hhandled.reached.resting hwired hplain htame
      have hnone := ih.2.not_astray hresting.steady hresting.quiet
      exact ⟨ih.1, ih.2.requeue fun a t hastray => absurd hastray (hnone a t)⟩
  | settings hhandled ih =>
      have hresting := hhandled.reached.resting hwired hplain htame
      have hnone := ih.2.not_astray hresting.steady hresting.quiet
      exact ⟨ih.1, ih.2.requeue fun a t hastray => absurd hastray (hnone a t)⟩

end Handled

/-- Support and firings are inverse to each other where no head calls anything that is not
monotonic: activations support exactly what their firings have concluded, whatever is listed
has a supporter, the firings that stand are those that were not taken back, and whatever is
deduced is listed.  What is listed is deduced if every pattern after the first of its rule
has a plain predicate. -/
theorem support_inverts_firings {rules : List Rule}
    (hn : Network.compile rules Registry.standard = .ok n)
    (hsparing : ∀ rule ∈ rules, rule.Sparing Registry.standard) (h : Handled n e) :
    (∀ t, e.deductions.contains t = true → e.support.contains t = true) ∧
      (n.Plain → ∀ t, e.support.contains t = true → e.deductions.contains t = true) ∧
      (∀ t a, a ∈ e.supporters t ↔ ∃ conclusions hidden committed,
        e.firing? a = some (.fired conclusions hidden committed) ∧
          conclusions.any (· == t) = true) ∧
      (∀ t firings, e.support.get? t = some firings → firings.isEmpty = false) ∧
      e.stats.firings = e.stats.retractions + e.firedCount := by
  obtain ⟨hwired, hregistry, _⟩ := Network.compile_eq_ok hn
  have hoperated := h.operated
  have hspared := Network.destructive_eq_false hn hsparing
  have hconcrete : n.Concrete := Network.concrete_of_binds
    (fun _ _ _ call _ b hb => (Registry.binds_standard call.name b (hregistry ▸ hb)).1)
    fun _ _ _ call _ b hb => (Registry.binds_standard call.name b (hregistry ▸ hb)).2
  refine ⟨fun t ht => hoperated.contains_support hspared ht, fun hplain t ht => ?_,
    hoperated.mem_supporters_iff hwired hconcrete hspared, fun t firings ht => ?_,
    hoperated.firings_eq hspared⟩
  · have htame := Network.tame_of_standard hn fun rule hrule call hcall b hb =>
      ((hsparing rule hrule).kept call hcall b hb).2
    have hmild := Network.mild_of_standard hn fun rule hrule => (hsparing rule hrule).kept
    have hresting := h.reached.resting hwired hplain htame
    have hprudent := h.prudent hwired hplain htame hmild
    refine (hprudent.deduced_iff hresting.steady hresting.quiet t).2 (Or.inl ?_)
    exact (hoperated.attributed.contains_support_iff t).1 ht
  · rw [Bool.eq_false_iff]
    exact fun hempty => hoperated.attributed.listed t firings ht (OrderedSet.isEmpty_iff.1 hempty)

theorem handled_mirror : Handled mirrorNetwork mirror := by
  have hdone : ((start mirrorNetwork MemoryGraph.empty).add 20 link).state?.isSome = true := by
    decide +kernel
  exact .added (.start .empty) (Outcome.state?_eq_getD hdone _)

/-- Both links are deduced, and each holds up the other. -/
theorem support_inverts_firings_mirror :
    mirrorNetwork.Plain ∧ (mirror.deductions.contains link = true ↔
      mirror.support.contains link = true) ∧ mirror.support.contains link = true ∧
      mirror.firedCount = 2 := by
  have hsparing : ∀ rule ∈ [mirroring], rule.Sparing Registry.standard := by
    intro rule hrule call hcall
    obtain rfl := List.mem_singleton.1 hrule
    cases List.mem_singleton.1 hcall
  have hplain : mirrorNetwork.Plain := Network.plain_of_all (by decide +kernel)
  obtain ⟨hlisted, hdeduced, _, _, hcount⟩ :=
    support_inverts_firings compile_mirroring hsparing handled_mirror
  have hstats : (mirror.stats.firings, mirror.stats.retractions) = (2, 0) := by decide +kernel
  obtain ⟨hfirings, hretractions⟩ := Prod.mk.inj hstats
  refine ⟨hplain, ⟨hlisted link, hdeduced hplain link⟩, by decide +kernel, ?_⟩
  omega

/-! ## A conclusion that is withdrawn and keeps its supporter -/

/-- Concludes the fact again from what it has led to. -/
def echoing : Rule :=
  .make none [.pattern ⟨.var ⟨"b", 0⟩, .uri "q", .var ⟨"c", 1⟩⟩]
    [.pattern ⟨.var ⟨"b", 0⟩, .functor "f" [.integer 1], .var ⟨"c", 1⟩⟩] .forward

def echoNetwork : Network :=
  ((Network.compile [lookingAhead, echoing] Registry.standard).toOption).getD default

/-- The engine after the fact was added, found by search and concluded again. -/
def echo : Engine MemoryGraph :=
  let e := start echoNetwork .empty
  let e := (e.recompute 20).state?.getD e
  let e := (e.add 20 fact).state?.getD e
  (e.add 20 ⟨.uri "u", .uri "p", .integer 1⟩).state?.getD e

/-- The engine after the fact was deleted from the base. -/
def fading : Engine MemoryGraph := (echo.delete 20 fact).state?.getD echo

theorem handled_fading : Handled echoNetwork fading := by
  set e₀ : Engine MemoryGraph := start echoNetwork .empty with he₀
  set e₁ : Engine MemoryGraph := (e₀.recompute 20).state?.getD e₀ with he₁
  set e₂ : Engine MemoryGraph := (e₁.add 20 fact).state?.getD e₁ with he₂
  have hcomputed : Handled echoNetwork e₁ :=
    .recomputed (.start .empty) (Outcome.state?_eq_getD (by decide +kernel) _)
  have hadded : Handled echoNetwork e₂ :=
    .added hcomputed (Outcome.state?_eq_getD (by decide +kernel) _)
  have hecho : Handled echoNetwork echo :=
    .added hadded (Outcome.state?_eq_getD (by decide +kernel) _)
  exact .deleted hecho (Or.inl (by decide +kernel)) (Outcome.state?_eq_getD (by decide +kernel) _)

/-- The fact is no deduction any more, and is still listed. -/
theorem not_support_inverts_firings_fading :
    Network.compile [lookingAhead, echoing] Registry.standard = .ok echoNetwork ∧
      (∀ rule ∈ [lookingAhead, echoing], rule.Sparing Registry.standard) ∧
      Handled echoNetwork fading ∧ fading.state = .idle ∧
      fading.support.contains fact = true ∧ fading.deductions.contains fact = false := by
  refine ⟨ok_getD_of_isSome (by decide +kernel), ?_, handled_fading, by decide +kernel,
    by decide +kernel, by decide +kernel⟩
  intro rule hrule call hcall
  rcases List.mem_pair.1 hrule with rfl | rfl
  · cases List.mem_singleton.1 hcall
  · cases List.mem_singleton.1 hcall

end Engine

end Entailment
