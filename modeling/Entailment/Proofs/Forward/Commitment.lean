import Entailment.Proofs.Forward.Foundation
import Entailment.Proofs.Forward.Tally
import Entailment.Proofs.Forward.Thoroughness

/-!
# What is known when a rule fires

Activations fire while no event waits, but suspects may still wait to be checked.  So when
a rule fires, and also when it is one that cannot be taken back, all that it has matched is
in view and has a finite proof from the base, from committed conclusions and from suspects.
A suspect may turn out to hold itself up: then a rule has fired, and has removed something
for good, on the strength of a conclusion that is withdrawn soon after.
-/

namespace Entailment

/-- What is given to begin with may grow. -/
theorem Rests.mono {given given' : Triple → Prop} {step : List Triple → Triple → Prop}
    (h : ∀ t, given t → given' t) {t : Triple} (ht : Rests given step t) : Rests given' step t :=
  ht.transfer (fun t ht => .given (h t ht)) fun ts _ hts => Or.inr ⟨ts, hts, fun _ hm => hm⟩

/-- What holds itself up and nothing else does has no proof. -/
theorem Rests.not_of_circular {given : Triple → Prop} {step : List Triple → Triple → Prop}
    {circle : Triple → Prop} (hgiven : ∀ t, given t → ¬ circle t)
    (hstep : ∀ ts t, step ts t → circle t → ∃ m ∈ ts, circle m) {t : Triple}
    (ht : Rests given step t) : ¬ circle t := by
  induction ht with
  | given ht => exact hgiven _ ht
  | step hts _ ih =>
      intro hcircle
      obtain ⟨m, hm, hback⟩ := hstep _ _ hts hcircle
      exact ih m hm hback

/-- Rules are tame if the builtins in their bodies and heads keep what is bound. -/
theorem Network.tame_of_compile {rules : List Rule} {registry : Registry} {n : Network}
    (hn : Network.compile rules registry = .ok n)
    (hbody : ∀ name b, registry.get? name = some b → Procedure.Keeps b.body)
    (hhead : ∀ rule ∈ rules, ∀ call, Clause.call call ∈ rule.head → ∀ b,
      registry.get? call.name = some b → Procedure.Keeps b.head) : n.Tame := by
  obtain ⟨_, hregistry, hrules⟩ := compile_eq_ok hn
  refine tame_of_keeps (by rwa [hregistry]) fun r c call b hc hcall hb => ?_
  rw [rule?, hrules, List.getElem?_map] at hc
  obtain ⟨rule, hrule, rfl⟩ := Option.map_eq_some_iff.1 hc
  exact hhead rule (List.mem_of_getElem? hrule) call hcall b (hregistry ▸ hb)

theorem Registry.keeps_body_standard : ∀ name b, Registry.standard.get? name = some b →
    Procedure.Keeps b.body :=
  fun _ b hb => Builtin.keeps_body_of_mem_standard b (Registry.mem_standard hb)

/-- With the standard builtins, heads in which nothing is dropped keep what is bound. -/
theorem Registry.keeps_head_of_all (rules : List Rule)
    (h : (rules.all fun rule => rule.head.all fun clause => clause.call?.all fun call =>
      (Registry.standard.get? call.name).all fun b => b.name != "drop") = true) :
    ∀ rule ∈ rules, ∀ call, Clause.call call ∈ rule.head → ∀ b,
      Registry.standard.get? call.name = some b → Procedure.Keeps b.head := by
  intro rule hrule call hcall b hb
  have hclause := List.all_eq_true.1 (List.all_eq_true.1 h rule hrule) _ hcall
  simp only [Clause.call?, Option.all_some, hb, bne_iff_ne] at hclause
  exact Builtin.keeps_head_of_mem_standard b (Registry.mem_standard hb) hclause

namespace Engine

variable {e e' : Engine MemoryGraph} {n : Network} {a b : Activation} {rechecks : Nat}
  {answer : Option Nat} {conclusions : List Triple} {hidden : List Node} {committed : Bool}

/-! ## Steps that make an activation fire -/

/-- Losing tokens makes no activation fire. -/
theorem Forgets.firing? {t : Triple} {firing : Firing} (h : e.Forgets t e')
    (ha : e'.firing? a = some firing) : e.firing? a = some firing := by
  induction h with
  | refl => exact ha
  | next _ hconsistent _ hc _ hrecedes _ _ ih =>
      rw [firing?_of_memories_eq (by rw [hrecedes.frame])] at ha
      exact ih (firing?_cleared hconsistent.stocked hc ha).1

/-- Nor does asking activations again. -/
theorem Reasked.fired {asked : List Activation} {changed : Bool} (h : e.Reasked asked changed e')
    (hconsistent : e.Consistent nothingGone) (hbacked : e.Backed)
    (ha : e'.firing? a = some (.fired conclusions hidden committed)) :
    e.firing? a = some (.fired conclusions hidden committed) := by
  induction h with
  | none => exact ha
  | next hreasked hc _ _ _ hreconsidered ih =>
      have hstocked := (hreasked.sound hconsistent hbacked).1.stocked
      exact ih (hreconsidered.firing?_of_fired (hstocked.lt_length hc) ha)

/-- An activation that has come to be fired was waiting. -/
theorem Fired.pending (h : e.Fired b e') (he : e.Stocked)
    (hafter : e'.firing? a = some (.fired conclusions hidden committed))
    (hbefore : e.firing? a ≠ some (.fired conclusions hidden committed)) :
    a = b ∧ e.firing? a = some .pending ∧
      ∃ c, e.network.rule? a.rule = some c ∧ c.destructive = committed := by
  cases h with
  | stale => exact absurd hafter hbefore
  | @blocked c _ _ _ _ hc _ _ hframe =>
      have hset : e'.firing? a = (e.setFiring b .blocked).firing? a :=
        firing?_of_memories_eq (by rw [hframe])
      rw [hset, firing?_setFiring (he.lt_length hc)] at hafter
      split at hafter
      · cases hafter
      · exact absurd hafter hbefore
  | @drawn c _ st drawn _ _ _ hpending hc _ _ hframe hadopts hpurges =>
      have hset : e'.firing? a =
          (e.setFiring b (.fired drawn st.effects.hidden c.destructive)).firing? a :=
        firing?_of_memories_eq (by rw [hpurges.frame, hadopts.frame, hframe])
      rw [hset, firing?_setFiring (he.lt_length hc)] at hafter
      split at hafter
      · rename_i hsame
        subst hsame
        cases hafter
        exact ⟨rfl, hpending, c, hc, rfl⟩
      · exact absurd hafter hbefore

/-- A step makes an activation fire only if it was waiting, and no event was. -/
theorem Stepped.pending_of_fired (h : e.Stepped rechecks answer e') (he : e.Steady)
    (hafter : e'.firing? a = some (.fired conclusions hidden committed))
    (hbefore : e.firing? a ≠ some (.fired conclusions hidden committed)) :
    e.events = [] ∧ e.firing? a = some .pending ∧
      ∃ c, e.network.rule? a.rule = some c ∧ c.destructive = committed := by
  have hsame : ∀ {e₀ : Engine MemoryGraph}, e₀.memories = e.memories →
      e₀.firing? a ≠ some (.fired conclusions hidden committed) := fun hmemories => by
    rwa [firing?_of_memories_eq hmemories]
  cases h with
  | late | back | settled | upheld => exact absurd hafter (hsame rfl)
  | entered _ henters =>
      rcases henters.grown.scheduled a _ hafter with hheld | ⟨hcontra, _⟩
      · exact absurd hheld (hsame rfl)
      · cases hcontra
  | left _ _ hforgets _ _ => exact absurd (hforgets.firing? hafter) (hsame rfl)
  | fired hevents _ hfired =>
      obtain ⟨_, hpending, hrule⟩ := hfired.pending he.consistent.stocked hafter (hsame rfl)
      exact ⟨hevents, hpending, hrule⟩
  | reviewed _ _ _ hreviewed =>
      refine absurd hafter (hsame ?_)
      rcases hreviewed with ⟨hframe, _⟩ | ⟨hframe, _⟩
      · rw [hframe]
      · rw [hframe]
        rfl
  | changed _ _ hreasked =>
      exact absurd (hreasked.fired (he.consistent.of_agree rfl) he.backed hafter) (hsame rfl)

/-! ## Engines within a run -/

/-- The engines that there are between the steps of a run, whichever operation began it. -/
inductive Underway (n : Network) : Nat → Engine MemoryGraph → Prop where
  | begun {e e' : Engine MemoryGraph} {o : Operation} :
      Reached n e → o.request e = .ok () e' → Underway n 0 e'
  | worked {rechecks more : Nat} {e e' : Engine MemoryGraph} :
      Underway n rechecks e → Work.step rechecks e = .ok (some more) e' → Underway n more e'

/-- A request that is granted leaves a steady engine. -/
theorem Resting.request (he : e.Resting n) {o : Operation} (h : o.request e = .ok () e') :
    e'.Steady ∧ e'.network = n := by
  have hconsistent := he.steady.consistent
  suffices hends : (∃ cause, o.request e = .error cause e) ∨
      o.request.Ends e fun _ e₁ => e₁.Steady ∧ e₁.network = n by
    rcases hends with ⟨cause, hrefused⟩ | hends
    · rw [hrefused] at h
      cases h
    · obtain ⟨_, e₁, hdone, hpost⟩ := hends.exists_ok
      rw [hdone] at h
      cases h
      exact hpost
  cases o with
  | recompute =>
      refine Or.inr ((Work.ends_restart hconsistent.base).mono fun _ e₁ hrestarts => ?_)
      exact ⟨hrestarts.steady hconsistent.wired hconsistent.plain he.steady.tame hconsistent.base,
        hrestarts.network_eq.trans he.network_eq⟩
  | add t =>
      cases ht : t.isGround with
      | false =>
          refine Or.inl ⟨.graph (.invalidTriple t), ?_⟩
          change EStateM.bind (Work.addToBase t) _ e = _
          rw [EStateM.bind, Work.addToBase_of_not_ground ht]
      | true =>
          refine Or.inr ((Work.ends_addToBase hconsistent.base ht).bind fun _ e₁ hadded => ?_)
          obtain ⟨_, rfl⟩ := hadded
          exact ⟨he.steady.expanded ht, he.network_eq⟩
  | delete t =>
      refine Or.inr ((Work.ends_deleteVisible hconsistent.base hconsistent.deductions t).bind
        fun _ e₁ hdeleted => ?_)
      obtain ⟨_, rfl⟩ := hdeleted
      refine ⟨he.steady.reduced t, ?_⟩
      rw [← he.network_eq]
      unfold reduced
      split <;> split <;> rfl
  | announce event => exact Or.inr (Work.ends_modify.2 ⟨he.steady.queue event, he.network_eq⟩)
  | close =>
      have hclosed : e.close.Resting n := he.reset.of_agree rfl
      exact Or.inr (Work.ends_modify.2 ⟨hclosed.steady, hclosed.network_eq⟩)

theorem Underway.steady (h : Underway n rechecks e) (hwired : n.Wired) (hplain : n.Plain)
    (htame : n.Tame) : e.Steady ∧ e.network = n := by
  induction h with
  | begun hreached hrequest => exact (hreached.resting hwired hplain htame).request hrequest
  | worked _ hwork ih =>
      have hstepped := ih.1.stepped hwork
      exact ⟨hstepped.steady ih.1, hstepped.network_eq.trans ih.2⟩

/-! ## The grounds of a firing -/

/-- A firing that stands has drawn the triple from the others. -/
def Concluded (e : Engine MemoryGraph) (ts : List Triple) (t : Triple) : Prop :=
  ∃ a, e.Fires a t ∧ e.matchedBy a = ts

/-- While no event waits, what a token holds is in view and has a proof from the base, from
committed conclusions and from suspects. -/
theorem Steady.proved (he : e.Steady) (hevents : e.events = []) {m : Triple}
    (hm : m ∈ e.matchedBy a) : e.view.sees m = true ∧
      Rests (fun t => e.Given t ∨ e.suspects.contains t = true) e.Concluded m := by
  have hclean := not_announced_of_events hevents
  have hseen := he.consistent.sees_of_mem_matchedBy hclean hm
  refine ⟨hseen, (he.consistent.anchored hclean hseen).transfer ?_ ?_⟩
  · rintro t (hbase | hcommitted | hsuspect)
    · exact .given (Or.inl (Or.inl hbase))
    · exact .given (Or.inl (Or.inr hcommitted))
    · exact .given (Or.inr hsuspect)
  · rintro ts t ⟨b, hb, hmatched⟩
    exact Or.inr ⟨ts, ⟨b, (he.backed t b).1 hb, hmatched⟩, fun _ hm => hm⟩

/-- An activation of a rule that cannot be taken back fires on triples that are in view and
have a finite proof by firings that stand, from the base, from committed conclusions and
from conclusions whose support is still to be checked.  If none is still to be checked,
the proof is from the base and committed conclusions. -/
theorem proved_of_fired {rules : List Rule} {registry : Registry}
    (hn : Network.compile rules registry = .ok n)
    (hbody : ∀ name b, registry.get? name = some b → Procedure.Keeps b.body)
    (hhead : ∀ rule ∈ rules, ∀ call, Clause.call call ∈ rule.head → ∀ b,
      registry.get? call.name = some b → Procedure.Keeps b.head)
    (hplain : n.Plain) (h : Underway n rechecks e) (hstep : Work.step rechecks e = .ok answer e')
    (hafter : e'.firing? a = some (.fired conclusions hidden true))
    (hbefore : e.firing? a ≠ some (.fired conclusions hidden true)) :
    ∃ c, n.rule? a.rule = some c ∧ c.destructive = true ∧
      (e.matchedBy a).length = c.levels ∧
      ∀ m ∈ e.matchedBy a, e.view.sees m = true ∧
        Rests (fun t => e.Given t ∨ e.suspects.contains t = true) e.Concluded m ∧
        (e.suspects.members = [] → Rests e.Given e.Concluded m) := by
  obtain ⟨hwired, _, _⟩ := Network.compile_eq_ok hn
  obtain ⟨hsteady, hnetwork⟩ := h.steady hwired hplain (Network.tame_of_compile hn hbody hhead)
  obtain ⟨hevents, hpending, c, hc, hdestructive⟩ :=
    (hsteady.stepped hstep).pending_of_fired hsteady hafter hbefore
  obtain ⟨c', hc', hlength, _⟩ := hsteady.consistent.stocked.rule_of_firing hpending
  obtain rfl := Option.some.inj (hc.symm.trans hc')
  refine ⟨c, hnetwork ▸ hc, hdestructive, hlength, fun m hm => ?_⟩
  obtain ⟨hseen, hproved⟩ := hsteady.proved hevents hm
  refine ⟨hseen, hproved, fun hnone => hproved.mono ?_⟩
  rintro t (hsettled | hsuspect)
  · exact hsettled
  · rw [OrderedSet.contains, hnone] at hsuspect
    cases hsuspect

/-! ## Runs that are followed step by step -/

/-- The engine after so many steps, if there are as many. -/
def walk : (steps rechecks : Nat) → Engine MemoryGraph → Nat × Engine MemoryGraph
  | 0, rechecks, e => (rechecks, e)
  | steps + 1, rechecks, e =>
    match Work.step rechecks e with
    | .ok (some rechecks) e => walk steps rechecks e
    | _ => (rechecks, e)

theorem underway_walk (h : Underway n rechecks e) (steps : Nat) :
    Underway n (walk steps rechecks e).1 (walk steps rechecks e).2 := by
  induction steps generalizing rechecks e with
  | zero => exact h
  | succ steps ih =>
      rw [walk]
      split
      next hstep => exact ih (.worked h hstep)
      next => exact h

/-- The engine after one more step. -/
def afterStep (rechecks : Nat) (e : Engine MemoryGraph) : Engine MemoryGraph :=
  match Work.step rechecks e with
  | .ok _ e' => e'
  | .error _ e' => e'

theorem Steady.exists_afterStep (he : e.Steady) (rechecks : Nat) :
    ∃ answer, Work.step rechecks e = .ok answer (e.afterStep rechecks) := by
  obtain ⟨answer, e', hstep, _⟩ := he.exists_step rechecks
  refine ⟨answer, ?_⟩
  rw [afterStep, hstep]

/-- The engine after a triple was added to the base and so many steps of the run. -/
def followed (steps : Nat) (t : Triple) (e : Engine MemoryGraph) : Nat × Engine MemoryGraph :=
  match (Operation.add t).request e with
  | .ok _ e' => walk steps 0 e'
  | .error _ e' => (0, e')

theorem underway_followed (h : Reached n e) (hresting : e.Resting n) {t : Triple}
    (ht : t.isGround = true) (steps : Nat) :
    Underway n (followed steps t e).1 (followed steps t e).2 := by
  have hbase := hresting.steady.consistent.base
  obtain ⟨_, e', hdone, _⟩ := (Work.ends_addToBase hbase ht).exists_ok
  have hrequest : (Operation.add t).request e = .ok () e' := by
    change EStateM.bind (Work.addToBase t) _ e = _
    rw [EStateM.bind, hdone]
    rfl
  rw [followed, hrequest]
  exact underway_walk (Underway.begun h hrequest) steps

/-- The activation has fired, and is never taken back. -/
def isFinal (e : Engine MemoryGraph) (a : Activation) : Bool :=
  match e.firing? a with
  | some (.fired _ _ committed) => committed
  | _ => false

theorem exists_fired_of_isFinal (h : e.isFinal a = true) :
    ∃ conclusions hidden, e.firing? a = some (.fired conclusions hidden true) := by
  unfold isFinal at h
  split at h
  next hfiring => exact ⟨_, _, h ▸ hfiring⟩
  next => cases h

theorem ne_fired_of_isFinal (h : e.isFinal a = false) :
    e.firing? a ≠ some (.fired conclusions hidden true) := by
  intro hfired
  rw [isFinal, hfired] at h
  cases h

/-- In a run the next step makes the activation fire. -/
structure FiresNext (n : Network) (run : Nat × Engine MemoryGraph) (a : Activation) : Prop where
  underway : Underway n run.1 run.2
  step : ∃ answer, Work.step run.1 run.2 = .ok answer (run.2.afterStep run.1)
  before : run.2.isFinal a = false
  after : (run.2.afterStep run.1).isFinal a = true

theorem firesNext_followed {rules : List Rule}
    (hn : Network.compile rules Registry.standard = .ok n)
    (hhead : ∀ rule ∈ rules, ∀ call, Clause.call call ∈ rule.head → ∀ b,
      Registry.standard.get? call.name = some b → Procedure.Keeps b.head)
    (hplain : n.Plain) (h : Reached n e) {t : Triple} (ht : t.isGround = true) {steps : Nat}
    (hbefore : (followed steps t e).2.isFinal a = false)
    (hafter : ((followed steps t e).2.afterStep (followed steps t e).1).isFinal a = true) :
    FiresNext n (followed steps t e) a := by
  obtain ⟨hwired, _, _⟩ := Network.compile_eq_ok hn
  have htame := Network.tame_of_compile hn Registry.keeps_body_standard hhead
  have hunderway := underway_followed h (h.resting hwired hplain htame) ht steps
  exact ⟨hunderway, (hunderway.steady hwired hplain htame).1.exists_afterStep _, hbefore, hafter⟩

/-- What is marked is picked, and marked no more. -/
def picking : Rule :=
  .make none [.pattern ⟨.var ⟨"x", 0⟩, .uri "marked", .var ⟨"y", 1⟩⟩]
    [.pattern ⟨.var ⟨"x", 0⟩, .uri "picked", .var ⟨"y", 1⟩⟩, .call ⟨"remove", [.integer 0]⟩] .forward

def pickingNetwork : Network :=
  ((Network.compile [picking] Registry.standard).toOption).getD default

def ripe : Triple := ⟨.uri "a", .uri "marked", .uri "b"⟩

/-- The run when its first activation is about to fire. -/
def picker : Nat × Engine MemoryGraph := followed 1 ripe (start pickingNetwork .empty)

theorem proved_of_fired_pick :
    FiresNext pickingNetwork picker ⟨0, 0⟩ ∧ (picker.2.matchedBy ⟨0, 0⟩).length = 1 ∧
      ∀ m ∈ picker.2.matchedBy ⟨0, 0⟩, picker.2.view.sees m = true ∧
        Rests picker.2.Given picker.2.Concluded m := by
  have hn : Network.compile [picking] Registry.standard = .ok pickingNetwork :=
    ok_getD_of_isSome (by decide +kernel)
  have hhead := Registry.keeps_head_of_all [picking] (by decide +kernel)
  have hplain : pickingNetwork.Plain := Network.plain_of_all (by decide +kernel)
  have hnext : FiresNext pickingNetwork picker ⟨0, 0⟩ :=
    firesNext_followed hn hhead hplain (.start .empty) (by decide) (by decide +kernel)
      (by decide +kernel)
  obtain ⟨_, hstep⟩ := hnext.step
  obtain ⟨_, _, hafter⟩ := exists_fired_of_isFinal hnext.after
  obtain ⟨_, _, _, _, hproved⟩ := proved_of_fired hn Registry.keeps_body_standard hhead hplain
    hnext.underway hstep hafter (ne_fired_of_isFinal hnext.before)
  refine ⟨hnext, by decide +kernel, fun m hm => ?_⟩
  obtain ⟨hseen, _, hsettled⟩ := hproved m hm
  exact ⟨hseen, hsettled (by decide +kernel)⟩

/-! ## A rule that fires on what holds itself up -/

/-- Until the list begins, what is sown is near.  What is near is near the other way round,
and is marked.  What is marked is picked when the list has the entry. -/
def gardening : List Rule :=
  [.make none
      [.pattern ⟨.var ⟨"x", 0⟩, .uri "sown", .var ⟨"y", 1⟩⟩,
        .call ⟨"noValue", [.uri "l", .uri Vocabulary.first]⟩]
      [.pattern ⟨.var ⟨"x", 0⟩, .uri "near", .var ⟨"y", 1⟩⟩] .forward,
    .make none [.pattern ⟨.var ⟨"x", 0⟩, .uri "near", .var ⟨"y", 1⟩⟩]
      [.pattern ⟨.var ⟨"y", 1⟩, .uri "near", .var ⟨"x", 0⟩⟩,
        .pattern ⟨.var ⟨"x", 0⟩, .uri "marked", .var ⟨"y", 1⟩⟩] .forward,
    .make none
      [.pattern ⟨.var ⟨"x", 0⟩, .uri "marked", .var ⟨"y", 1⟩⟩,
        .call ⟨"noValue", [.uri "l", .uri "stop"]⟩,
        .call ⟨"listContains", [.uri "l", .uri "a"]⟩]
      [.pattern ⟨.var ⟨"x", 0⟩, .uri "picked", .var ⟨"y", 1⟩⟩, .call ⟨"remove", [.integer 0]⟩]
      .forward]

def garden : Network := ((Network.compile gardening Registry.standard).toOption).getD default

def stored (t : Triple) (e : Engine MemoryGraph) : Engine MemoryGraph :=
  (e.add 20 t).state?.getD e

theorem reached_stored (h : Reached n e) {t : Triple}
    (hdone : (e.add 20 t).state?.isSome = true) : Reached n (stored t e) :=
  .added h (Outcome.state?_eq_getD hdone _)

/-- The garden after sowing, with the last cell of a list. -/
def tended : Engine MemoryGraph :=
  stored ⟨.uri "l", .uri Vocabulary.rest, .uri Vocabulary.nil⟩
    (stored ⟨.uri "a", .uri "sown", .uri "b"⟩ (start garden .empty))

/-- The run after the list was begun, when the next activation is about to fire. -/
def hasty : Nat × Engine MemoryGraph :=
  followed 2 ⟨.uri "l", .uri Vocabulary.first, .uri "a"⟩ tended

/-- What is near and what is marked in the garden. -/
def circle : List Triple :=
  [⟨.uri "a", .uri "near", .uri "b"⟩, ⟨.uri "b", .uri "near", .uri "a"⟩,
    ⟨.uri "a", .uri "marked", .uri "b"⟩, ⟨.uri "b", .uri "marked", .uri "a"⟩]

/-- Every firing that stands and has drawn one of the triples has matched one of them. -/
def isCircular (e : Engine MemoryGraph) (ts : List Triple) : Bool :=
  (List.range e.memories.length).all fun r => (e.memory r).firings.entries.all fun x =>
    match x.2 with
    | .fired conclusions _ false =>
      !conclusions.any (fun t => ts.any (· == t)) ||
        ((e.memory r).triples x.1).any fun m => ts.any (· == m)
    | _ => true

theorem not_rests_of_isCircular {ts : List Triple} (h : e.isCircular ts = true)
    (hsettled : (ts.all fun t => !e.base.contains t && !e.committed.contains t) = true)
    {m : Triple} (hm : ts.any (· == m) = true) : ¬ Rests e.Given e.Concluded m := by
  intro hrests
  let amongThem (t : Triple) : Prop := ts.any (· == t) = true
  suffices hnot : ¬ amongThem m from hnot hm
  apply Rests.not_of_circular ?_ ?_ hrests
  · intro t hgiven hamong
    obtain ⟨u, hu, hsame⟩ := List.any_eq_true.1 hamong
    have hunsettled := List.all_eq_true.1 hsettled u hu
    rw [e.base.contains_congr hsame, e.committed.contains_congr hsame] at hunsettled
    rcases hgiven with hbase | hcommitted
    · simp [hbase] at hunsettled
    · simp [hcommitted] at hunsettled
  · rintro _ t ⟨a, ⟨firing, hfiring, conclusions, hidden, rfl, hconcludes⟩, rfl⟩ hamong
    have hrule : a.rule ∈ List.range e.memories.length :=
      List.mem_range.2 (lt_length_of_firing hfiring)
    have hentry := List.all_eq_true.1 (List.all_eq_true.1 h a.rule hrule) _
      (OrderedMap.mem_entries_iff.2 hfiring)
    obtain ⟨u, hu, hsame⟩ := List.any_eq_true.1 hconcludes
    have hdrawn : conclusions.any (fun t => ts.any (· == t)) = true := by
      obtain ⟨v, hv, hsame'⟩ := List.any_eq_true.1 hamong
      exact List.any_eq_true.2 ⟨u, hu, List.any_eq_true.2 ⟨v, hv, BEq.trans hsame' (BEq.symm hsame)⟩⟩
    simp only [hdrawn, Bool.not_true, Bool.false_or] at hentry
    exact List.any_eq_true.1 hentry

/-- A rule that cannot be taken back fires on a triple without a proof. -/
theorem not_proved_hasty :
    Network.compile gardening Registry.standard = .ok garden ∧
      FiresNext garden hasty ⟨2, 3⟩ ∧
      ∃ m ∈ hasty.2.matchedBy ⟨2, 3⟩, ¬ Rests hasty.2.Given hasty.2.Concluded m := by
  have hn : Network.compile gardening Registry.standard = .ok garden :=
    ok_getD_of_isSome (by decide +kernel)
  have hhead := Registry.keeps_head_of_all gardening (by decide +kernel)
  have hplain : garden.Plain := Network.plain_of_all (by decide +kernel)
  have htended : Reached garden tended :=
    reached_stored (reached_stored (.start .empty) (by decide +kernel)) (by decide +kernel)
  have hmatched : ((hasty.2.matchedBy ⟨2, 3⟩).any fun m => circle.any (· == m)) = true := by
    decide +kernel
  refine ⟨hn, firesNext_followed hn hhead hplain htended (by decide +kernel) (by decide +kernel)
    (by decide +kernel), ?_⟩
  obtain ⟨m, hm, hcircle⟩ := List.any_eq_true.1 hmatched
  exact ⟨m, hm, not_rests_of_isCircular (by decide +kernel) (by decide +kernel) hcircle⟩

end Engine

end Entailment
