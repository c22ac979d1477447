import Entailment.Proofs.Forward.Adoption

/-!
# Firing and asking again

An activation that waits is blocked or fires, and one that was asked before may be
asked again.  In each case it is known what has become of the engine, and that it is
as consistent as before and its conclusions are backed by the firings that drew them.
-/

namespace Entailment

/-! ## What an evaluation gives -/

namespace CallContext

theorem isGround_of_mem_find {v : View MemoryGraph} (hv : v.Sound) (label : String)
    (matched : List (Option Triple)) (speculative : Bool) {p : TriplePattern} {t : Triple}
    (h : t ∈ (ofView v label matched speculative).find p) : t.isGround = true :=
  hv.isGround (hv.mem_visible h).1

end CallContext

theorem CompiledRule.distinct_of_evaluate {c : CompiledRule} {registry : Registry}
    {ctx : CallContext} {st st' : CallState} {conclusions : List Triple}
    (h : c.evaluate registry ctx st = (some conclusions, st')) : Distinct conclusions := by
  unfold evaluate at h
  cases hasked : allHold (fun call st => call.holds registry ctx st) c.calls st with
  | mk held st₁ =>
      rw [hasked] at h
      cases held with
      | false => cases h
      | true =>
          obtain ⟨hconclusions, _⟩ := Prod.mk.inj h
          rw [← Option.some.inj hconclusions]
          exact OrderedSet.distinct _

namespace Network

/-- A rule of the network draws ground conclusions only. -/
def Concrete (n : Network) : Prop :=
  ∀ r c, n.rule? r = some c → ∀ (ctx : CallContext) (st st' : CallState) conclusions,
    (∀ p, ∀ t ∈ ctx.find p, t.isGround = true) → st.bindings.Ground → st.effects = {} →
    c.evaluate n.registry ctx st = (some conclusions, st') →
    ∀ t ∈ conclusions, t.isGround = true

/-- A rule of the network draws ground conclusions only, and has nothing dropped. -/
def Tame (n : Network) : Prop :=
  ∀ r c, n.rule? r = some c → ∀ (ctx : CallContext) (st st' : CallState) conclusions,
    (∀ p, ∀ t ∈ ctx.find p, t.isGround = true) → st.bindings.Ground → st.effects = {} →
    c.evaluate n.registry ctx st = (some conclusions, st') →
    (∀ t ∈ conclusions, t.isGround = true) ∧ st'.effects.dropped = []

theorem Tame.concrete {n : Network} (h : n.Tame) : n.Concrete :=
  fun r c hc ctx st st' conclusions hfind hground heffects hevaluate =>
    (h r c hc ctx st st' conclusions hfind hground heffects hevaluate).1

end Network

namespace Engine

variable {e e' : Engine MemoryGraph} {a : Activation} {c : CompiledRule}
  {gone : Nat → Triple → Prop}

/-- What the calls of an activation see when it fires. -/
def callContext (e : Engine MemoryGraph) (c : CompiledRule) (a : Activation)
    (speculative : Bool) : CallContext :=
  .ofView e.view c.label (c.matched (e.matchedBy a)) speculative

/-- An activation has been fired: it no longer waited, or was blocked, or has drawn
conclusions and had triples removed. -/
inductive Fired (e : Engine MemoryGraph) (a : Activation) : Engine MemoryGraph → Prop where
  | stale : e.firing? a ≠ some .pending → Fired e a e
  | blocked {c : CompiledRule} {b : Bindings} {st : CallState} {e' : Engine MemoryGraph} :
      e.firing? a = some .pending → e.network.rule? a.rule = some c →
      c.bindings (e.matchedBy a) = .ok b →
      c.evaluate e.network.registry (e.callContext c a false) { bindings := b, world := e.world } =
        (none, st) →
      e' = { e.setFiring a .blocked with world := e'.world, stats := e'.stats } → Fired e a e'
  | drawn {c : CompiledRule} {b : Bindings} {st : CallState} {conclusions : List Triple}
      {e₀ e₁ e' : Engine MemoryGraph} :
      e.firing? a = some .pending → e.network.rule? a.rule = some c →
      c.bindings (e.matchedBy a) = .ok b →
      c.evaluate e.network.registry (e.callContext c a false) { bindings := b, world := e.world } =
        (some conclusions, st) →
      e₀ = { e.setFiring a (.fired conclusions st.effects.hidden c.destructive) with
        world := e₀.world, stats := e₀.stats, hidden := e₀.hidden } →
      e₀.Adopts e₁ a c.destructive conclusions → e₁.Purges e' st.effects.removed → Fired e a e'

/-- The same for rules that may drop triples. -/
inductive Dealt (e : Engine MemoryGraph) (a : Activation) : Engine MemoryGraph → Prop where
  | stale : e.firing? a ≠ some .pending → Dealt e a e
  | blocked {c : CompiledRule} {b : Bindings} {st : CallState} {e' : Engine MemoryGraph} :
      e.firing? a = some .pending → e.network.rule? a.rule = some c →
      c.bindings (e.matchedBy a) = .ok b →
      c.evaluate e.network.registry (e.callContext c a false) { bindings := b, world := e.world } =
        (none, st) →
      e' = { e.setFiring a .blocked with world := e'.world, stats := e'.stats } → Dealt e a e'
  | drawn {c : CompiledRule} {b : Bindings} {st : CallState} {conclusions : List Triple}
      {e₀ e₁ e₂ e' : Engine MemoryGraph} :
      e.firing? a = some .pending → e.network.rule? a.rule = some c →
      c.bindings (e.matchedBy a) = .ok b →
      c.evaluate e.network.registry (e.callContext c a false) { bindings := b, world := e.world } =
        (some conclusions, st) →
      (∀ t ∈ conclusions, t.isGround = true) →
      e₀ = { e.setFiring a (.fired conclusions st.effects.hidden c.destructive) with
        world := e₀.world, stats := e₀.stats, hidden := e₀.hidden } →
      e₀.Adopts e₁ a c.destructive conclusions → e₁.Purges e₂ st.effects.removed →
      e₂.Sheds e' st.effects.dropped → Dealt e a e'

/-- An activation that had fired or had been blocked has been asked again. -/
inductive Reconsidered (e : Engine MemoryGraph) (c : CompiledRule) (a : Activation)
    (fired : Bool) : Bool → Engine MemoryGraph → Prop where
  | same {b : Bindings} {st : CallState} {e' : Engine MemoryGraph} :
      c.bindings (e.matchedBy a) = .ok b →
      allHold (fun call st => call.holdsSpeculatively e.network.registry (e.callContext c a true) st)
        c.calls { bindings := b, world := e.world } = (fired, st) →
      e' = { e with world := e'.world } → Reconsidered e c a fired false e'
  | taken {e₁ e' : Engine MemoryGraph} : fired = true →
      e₁ = { e.setFiring a .blocked with world := e₁.world } →
      e₁.Recedes e' → e₁.Abandons e' → e'.Backed → Reconsidered e c a fired true e'
  | again {e' : Engine MemoryGraph} : fired = false →
      e' = { e.schedule a with world := e'.world } → Reconsidered e c a fired true e'

theorem Stocked.bindings_eq (he : e.Stocked) (hc : e.network.rule? a.rule = some c)
    {firing : Firing} (ha : e.firing? a = some firing) :
    ∃ b, c.bindings (e.matchedBy a) = .ok b ∧ c.Matches (e.matchedBy a) b := by
  obtain ⟨hlength, b, hb⟩ := (he.2 a.rule).firing c hc a.token firing ha
  exact ⟨b, hb.bindings_eq hlength, hb⟩

theorem Consistent.setFiring (h : e.Consistent gone) (hc : e.network.rule? a.rule = some c)
    {old new : Firing} (ha : e.firing? a = some old)
    (hfired : ∀ conclusions hidden committed, new = .fired conclusions hidden committed →
      Distinct conclusions ∧ committed = c.destructive) :
    (e.setFiring a new).Consistent gone where
  wired := h.wired
  plain := h.plain
  base := h.base
  deductions := h.deductions
  stocked := h.stocked.setFiring hc ((h.stocked.2 a.rule).firing_lt a.token old ha)
    ((h.stocked.2 a.rule).firing c hc a.token old ha) hfired
  covered r id token hid := by
    rw [node?_setFiring (h.stocked.lt_length hc)] at hid
    exact h.covered r id token hid
  accounted t := by
    refine (h.accounted t).transfer (fun u hu => .given hu) ?_
    rintro ts u ⟨b, hb, rfl⟩
    refine Or.inr ⟨_, ⟨b, hb, rfl⟩, ?_⟩
    rw [matchedBy_setFiring (h.stocked.lt_length hc)]
    exact fun m hm => hm

/-- The activations that have drawn a conclusion, after one firing has changed. -/
theorem fires_setFiring_iff (ha : a.rule < e.memories.length) (new : Firing) (b : Activation)
    (t : Triple) : (e.setFiring a new).Fires b t ↔
      if a = b then new.Concludes t else e.Fires b t := by
  unfold Fires
  rw [firing?_setFiring ha]
  split
  · constructor
    · rintro ⟨firing, hfiring, hconcludes⟩
      exact Option.some.inj hfiring ▸ hconcludes
    · exact fun h => ⟨new, rfl, h⟩
  · exact Iff.rfl

theorem not_concludes_pending (t : Triple) : ¬ Firing.pending.Concludes t := by
  rintro ⟨_, _, h, _⟩
  cases h

theorem not_concludes_blocked (t : Triple) : ¬ Firing.blocked.Concludes t := by
  rintro ⟨_, _, h, _⟩
  cases h

theorem not_fires_of_not_concludes {firing : Firing} (ha : e.firing? a = some firing)
    (hfiring : ∀ t, ¬ firing.Concludes t) (t : Triple) : ¬ e.Fires a t := by
  rintro ⟨found, hfound, hconcludes⟩
  rw [ha] at hfound
  exact hfiring t (Option.some.inj hfound ▸ hconcludes)

/-- A firing that concludes nothing may be replaced by another such. -/
theorem Backed.setFiring (hbacked : e.Backed) (ha : a.rule < e.memories.length)
    {old new : Firing} (hold : e.firing? a = some old) (hnone : ∀ t, ¬ old.Concludes t)
    (hnone' : ∀ t, ¬ new.Concludes t) : (e.setFiring a new).Backed := by
  intro t b
  change b ∈ e.supporters t ↔ _
  rw [fires_setFiring_iff ha, hbacked t b]
  split
  · rename_i hb
    subst hb
    exact ⟨fun h => absurd h (not_fires_of_not_concludes hold hnone t),
      fun h => absurd h (hnone' t)⟩
  · exact Iff.rfl

theorem concludes_fired_iff {conclusions : List Triple} {hidden : List Node} {committed : Bool}
    {t : Triple} : (Firing.fired conclusions hidden committed).Concludes t ↔
      committed = false ∧ conclusions.any (· == t) = true := by
  constructor
  · rintro ⟨_, _, h, hany⟩
    cases h
    exact ⟨rfl, hany⟩
  · rintro ⟨rfl, hany⟩
    exact ⟨conclusions, hidden, rfl, hany⟩

/-- An activation that has waited supports what it has drawn. -/
theorem Backed.drawn (hbacked : e.Backed) (ha : e.firing? a = some .pending)
    (hlt : a.rule < e.memories.length) {conclusions : List Triple} {hidden : List Node}
    {committed : Bool} {e₀ e₁ : Engine MemoryGraph}
    (hframe : e₀ = { e.setFiring a (.fired conclusions hidden committed) with
      world := e₀.world, stats := e₀.stats, hidden := e₀.hidden })
    (hadopts : e₀.Adopts e₁ a committed conclusions) : e₁.Backed := by
  intro t d
  have hfires : e₁.Fires d t ↔
      (e.setFiring a (.fired conclusions hidden committed)).Fires d t := by
    rw [hadopts.frame, hframe]
    exact Iff.rfl
  have hsupporters : ∀ u, e₀.supporters u = e.supporters u := by
    intro u
    rw [hframe]
    rfl
  rw [hadopts.supporters_iff, hfires, fires_setFiring_iff hlt, hsupporters, hbacked t d,
    concludes_fired_iff]
  split
  · rename_i hd
    subst hd
    constructor
    · rintro (hold | ⟨hdestructive, _, hany⟩)
      · exact absurd hold (not_fires_of_not_concludes ha not_concludes_pending t)
      · exact ⟨hdestructive, hany⟩
    · rintro ⟨hdestructive, hany⟩
      exact Or.inr ⟨hdestructive, rfl, hany⟩
  · rename_i hd
    constructor
    · rintro (hold | ⟨_, rfl, _⟩)
      · exact hold
      · exact absurd rfl hd
    · exact Or.inl

theorem Orderly.setFiring (h : e.Orderly) (hc : e.network.rule? a.rule = some c)
    {old new : Firing} (ha : e.firing? a = some old)
    (hfired : ∀ conclusions hidden committed, new = .fired conclusions hidden committed →
      Distinct conclusions ∧ committed = c.destructive)
    (hbacked : (e.setFiring a new).Backed) : (e.setFiring a new).Orderly where
  wired := h.wired
  base := h.base
  deductions := h.deductions
  stocked := h.stocked.setFiring hc ((h.stocked.2 a.rule).firing_lt a.token old ha)
    ((h.stocked.2 a.rule).firing c hc a.token old ha) hfired
  backed := hbacked

theorem Reconsidered.orderly (h : e.Orderly) (hc : e.network.rule? a.rule = some c)
    {fired answer : Bool} {firing : Firing} (ha : e.firing? a = some firing)
    (hrevisable : firing.revisable? = some fired)
    (hreconsidered : e.Reconsidered c a fired answer e') : e'.Orderly := by
  have hlt := h.stocked.lt_length hc
  cases hreconsidered with
  | same _ _ hframe => exact h.of_agree (by rw [hframe])
  | taken _ hframe hrecedes _ hbacked' =>
      refine ⟨?_, ?_, hrecedes.sound, ?_, hbacked'⟩
      · rw [hrecedes.frame, hframe]
        exact h.wired
      · rw [hrecedes.frame, hframe]
        exact h.base
      · rw [hrecedes.frame, hframe]
        exact h.stocked.setFiring hc ((h.stocked.2 a.rule).firing_lt a.token firing ha)
          ((h.stocked.2 a.rule).firing c hc a.token firing ha) fun _ _ _ h => nomatch h
  | again hfired hframe =>
      have hblocked : firing = .blocked := by
        rw [hfired] at hrevisable
        cases firing with
        | blocked => rfl
        | pending => cases hrevisable
        | fired _ _ committed => cases committed <;> cases hrevisable
      subst hblocked
      have hset : (e.setFiring a .pending).Orderly :=
        h.setFiring hc ha (fun _ _ _ h => nomatch h)
          (h.backed.setFiring hlt ha not_concludes_blocked not_concludes_pending)
      refine hset.of_agree ?_
      rw [hframe]
      rfl

theorem Fired.sound (h : e.Consistent nothingGone) (hbacked : e.Backed)
    (hquiet : ∀ t, ¬ e.Announced t) (hfired : e.Fired a e') :
    e'.Consistent nothingGone ∧ e'.Backed := by
  cases hfired with
  | stale => exact ⟨h, hbacked⟩
  | @blocked c b st _ ha hc hb hevaluate hframe =>
      have hset : (e.setFiring a .blocked).Consistent nothingGone :=
        h.setFiring hc ha fun _ _ _ h => nomatch h
      have hbackedSet := hbacked.setFiring (h.stocked.lt_length hc) ha not_concludes_pending
        not_concludes_blocked
      constructor
      · apply hset.of_agree
        rw [hframe]
      · rw [hframe]
        exact hbackedSet
  | @drawn c b st conclusions e₀ e₁ _ ha hc hb hevaluate hframe hadopts hpurges =>
      have hdistinct := CompiledRule.distinct_of_evaluate hevaluate
      have hset : (e.setFiring a
          (.fired conclusions st.effects.hidden c.destructive)).Consistent nothingGone :=
        h.setFiring hc ha (by
          intro _ _ _ hsame
          cases hsame
          exact ⟨hdistinct, rfl⟩)
      have hstart : e₀.Consistent nothingGone := by
        apply hset.of_agree
        rw [hframe]
      have hquiet₀ : ∀ t, ¬ e₀.Announced t := by
        rw [hframe]
        exact hquiet
      exact ⟨hpurges.consistent (hadopts.consistent hstart hquiet₀),
        hpurges.backed (hbacked.drawn ha (h.stocked.lt_length hc) hframe hadopts)⟩

theorem Reconsidered.sound (h : e.Consistent gone) (hbacked : e.Backed)
    (hc : e.network.rule? a.rule = some c) {fired answer : Bool} {firing : Firing}
    (ha : e.firing? a = some firing) (hrevisable : firing.revisable? = some fired)
    (hreconsidered : e.Reconsidered c a fired answer e') :
    e'.Consistent gone ∧ e'.Backed := by
  refine ⟨?_, (hreconsidered.orderly (h.orderly hbacked) hc ha hrevisable).backed⟩
  cases hreconsidered with
  | same _ _ hframe => exact h.of_agree (by rw [hframe])
  | taken _ hframe hrecedes _ _ =>
      have hset : (e.setFiring a .blocked).Consistent gone :=
        h.setFiring hc ha fun _ _ _ h => nomatch h
      exact Consistent.recedes (hset.of_agree (by rw [hframe])) hrecedes
  | again _ hframe =>
      have hset : (e.setFiring a .pending).Consistent gone :=
        h.setFiring hc ha fun _ _ _ h => nomatch h
      refine hset.of_agree ?_
      rw [hframe]
      rfl

end Engine

namespace Work

variable {e : Engine MemoryGraph} {a : Activation} {c : CompiledRule}

theorem ends_report (conclusions : List Triple) :
    (report c conclusions).Ends e fun _ e' => e' = { e with world := e'.world } := by
  unfold report
  rw [ends_modify]
  split <;> rfl

/-- A firing that has drawn ground conclusions is taken over. -/
theorem ends_settleFiring (hbase : e.base.Sound) (hsound : e.deductions.Sound)
    (matched : List (Option Triple)) {conclusions : List Triple} {effects : Effects}
    (hground : ∀ t ∈ conclusions, t.isGround = true) :
    (settleFiring a c matched conclusions effects).Ends e fun _ e' =>
      ∃ e₀ e₁ e₂ : Engine MemoryGraph,
        e₀ = { e.setFiring a (.fired conclusions effects.hidden c.destructive) with
          world := e₀.world, stats := e₀.stats, hidden := e₀.hidden } ∧
        e₀.Adopts e₁ a c.destructive conclusions ∧ e₁.Purges e₂ effects.removed ∧
        e₂.Sheds e' effects.dropped := by
  unfold settleFiring
  rw [ends_bind, ends_count, ends_bind]
  refine (ends_report conclusions).mono ?_
  intro _ e' hreported
  simp only [ends_bind, ends_modify]
  set e₀ : Engine MemoryGraph := Engine.setFiring _ a
    (.fired conclusions effects.hidden c.destructive) with he₀
  have hframe : e₀ = { e.setFiring a (.fired conclusions effects.hidden c.destructive) with
      world := e₀.world, stats := e₀.stats, hidden := e₀.hidden } := by
    rw [he₀, hreported]
    rfl
  have hsound₀ : e₀.deductions.Sound := by
    rw [hframe]
    exact hsound
  have hbase₀ : e₀.base.Sound := by
    rw [hframe]
    exact hbase
  refine (ends_adopt hsound₀ matched hground).mono ?_
  intro _ e₁ hadopts
  have hbase₁ : e₁.base.Sound := by
    rw [hadopts.base_eq]
    exact hbase₀
  refine (ends_removeAll hbase₁ hadopts.sound effects.removed).mono ?_
  intro _ e₂ hpurges
  refine (ends_dropAll hpurges.soundBase hpurges.sound effects.dropped).mono ?_
  intro _ e₃ hsheds
  exact ⟨e₀, e₁, e₂, hframe, hadopts, hpurges, hsheds⟩

theorem ends_deal (h : e.Orderly) (hconcrete : e.network.Concrete) (a : Activation) :
    (fire a).Ends e fun _ e' => e.Dealt a e' := by
  unfold fire
  rw [ends_bind, ends_get]
  by_cases hpending : e.firing? a = some .pending
  · obtain ⟨c, hc, _⟩ := h.stocked.rule_of_firing hpending
    obtain ⟨b, hb, hmatches⟩ := h.stocked.bindings_eq hc hpending
    simp only [hpending, hc, ends_bind, hb, ends_attempt]
    change Ends _ { e with world := (c.evaluate e.network.registry (e.callContext c a false)
      { bindings := b, world := e.world }).2.world } _
    cases hevaluate : c.evaluate e.network.registry (e.callContext c a false)
        { bindings := b, world := e.world } with
    | mk answer st =>
        have hevaluate' := hevaluate
        unfold Engine.callContext at hevaluate'
        rw [hevaluate']
        cases answer with
        | none =>
            simp only [ends_bind, ends_count, ends_modify]
            exact .blocked hpending hc hb hevaluate rfl
        | some conclusions =>
            have hfind : ∀ p, ∀ t ∈ (e.callContext c a false).find p, t.isGround = true :=
              fun p t ht => CallContext.isGround_of_mem_find ⟨h.base, h.deductions⟩ _ _ _ ht
            have hground := hconcrete a.rule c hc _ _ _ _ hfind hmatches.ground rfl hevaluate
            refine (ends_settleFiring (e := { e with world := st.world }) h.base h.deductions _
              hground).mono ?_
            rintro _ e' ⟨e₀, e₁, e₂, hframe, hadopts, hpurges, hsheds⟩
            exact .drawn hpending hc hb hevaluate hground hframe hadopts hpurges hsheds
  · split
    · rename_i hfiring _
      exact absurd hfiring hpending
    · exact .stale hpending

theorem ends_fire (h : e.Orderly) (htame : e.network.Tame) (a : Activation) :
    (fire a).Ends e fun _ e' => e.Fired a e' := by
  refine (ends_deal h htame.concrete a).mono fun _ e' hdealt => ?_
  cases hdealt with
  | stale hpending => exact .stale hpending
  | blocked hpending hc hb hevaluate hframe => exact .blocked hpending hc hb hevaluate hframe
  | @drawn c b st _ _ _ _ _ hpending hc hb hevaluate _ hframe hadopts hpurges hsheds =>
      obtain ⟨_, _, hmatches⟩ := h.stocked.bindings_eq hc hpending
      rename_i hb'
      obtain rfl := Except.ok.inj (hb'.symm.trans hb)
      have hfind : ∀ p, ∀ t ∈ (e.callContext c a false).find p, t.isGround = true :=
        fun p t ht => CallContext.isGround_of_mem_find ⟨h.base, h.deductions⟩ _ _ _ ht
      obtain ⟨_, hdropped⟩ := htame a.rule c hc _ _ _ _ hfind hmatches.ground rfl hevaluate
      rw [hsheds.nothing hdropped]
      exact .drawn hpending hc hb hevaluate hframe hadopts hpurges

theorem ends_reconsider (h : e.Orderly)
    (hc : e.network.rule? a.rule = some c) {firing : Firing} (ha : e.firing? a = some firing)
    {fired : Bool} (hrevisable : firing.revisable? = some fired) :
    (reconsider c a fired).Ends e fun answer e' => e.Reconsidered c a fired answer e' := by
  obtain ⟨b, hb, _⟩ := h.stocked.bindings_eq hc ha
  unfold reconsider stillHolds
  simp only [ends_bind, ends_get, hb, ends_attempt]
  change Ends _ { e with world := (allHold (fun call st =>
    call.holdsSpeculatively e.network.registry (e.callContext c a true) st)
    c.calls { bindings := b, world := e.world }).2.world } _
  cases hasked : allHold (fun call st =>
      call.holdsSpeculatively e.network.registry (e.callContext c a true) st)
      c.calls { bindings := b, world := e.world } with
  | mk held st =>
      have hasked' := hasked
      unfold Engine.callContext at hasked'
      rw [hasked']
      cases fired with
      | true =>
          cases held with
          | true => exact .same hb hasked rfl
          | false =>
              obtain ⟨conclusions, hidden, rfl⟩ :
                  ∃ conclusions hidden, firing = .fired conclusions hidden false := by
                cases firing with
                | pending => cases hrevisable
                | blocked => cases hrevisable
                | fired conclusions hidden committed =>
                    cases committed with
                    | false => exact ⟨conclusions, hidden, rfl⟩
                    | true => cases hrevisable
              simp only [Bool.not_false, Bool.and_self, if_true, ends_bind, ends_modify, ha,
                Option.getD_some]
              set e₁ : Engine MemoryGraph :=
                Engine.setFiring { e with world := st.world } a .blocked with he₁
              have hframe : e₁ = { e.setFiring a .blocked with world := e₁.world } := by
                rw [he₁]
                rfl
              have hlt := h.stocked.lt_length hc
              refine (ends_retract (e := e₁) (a := a) (c := c) h.deductions hc _ ?_ ?_).mono ?_
              · intro t ht
                change a ∈ e.supporters t
                exact (h.backed t a).2 ⟨_, ha, ht⟩
              · intro conclusions' hidden' committed' hsame
                cases hsame
                exact ((h.stocked.2 a.rule).fired c hc a.token _ _ _ ha).1
              · rintro _ e₂ ⟨hrecedes, habandons, hloses⟩
                refine .taken rfl hframe hrecedes habandons ?_
                intro t d
                have hfires : e₂.Fires d t ↔ (e.setFiring a .blocked).Fires d t := by
                  rw [hrecedes.frame, hframe]
                  exact Iff.rfl
                rw [hloses t d, hfires, Engine.fires_setFiring_iff hlt]
                change d ∈ e.supporters t ∧ _ ↔ _
                rw [h.backed t d]
                split
                · rename_i hd
                  subst hd
                  constructor
                  · rintro ⟨⟨found, hfound, hconcludes⟩, hnot⟩
                    rw [ha] at hfound
                    exact absurd ⟨rfl, Option.some.inj hfound ▸ hconcludes⟩ hnot
                  · exact fun h => absurd h (Engine.not_concludes_blocked t)
                · rename_i hd
                  exact ⟨And.left, fun h => ⟨h, fun hlost => hd hlost.1.symm⟩⟩
      | false =>
          cases held with
          | true =>
              simp only [Bool.not_true, Bool.false_eq_true, if_false, Bool.not_false, Bool.and_self,
                if_true, ends_bind, ends_modify]
              exact .again rfl rfl
          | false => exact .same hb hasked rfl

end Work

end Entailment
