import Entailment.Proofs.Forward.Modesty

/-!
# Engines that make nothing up

The rules of a modest network bring nothing into view but what is made of the nodes that
were there.  So a vocabulary that has all triples in view and those of all tokens keeps
them, whatever piece of work is done and whatever an operation asks for, as long as what
is added belongs to it as well.
-/

namespace Entailment

namespace Engine

variable {e e' : Engine MemoryGraph} {n : Network} {most rechecks : Nat} {P : Node → Prop}

/-- An engine over the network that can go on working, all of whose triples are made of
the vocabulary, those in view and those that were when their tokens were stored. -/
structure Able (P : Node → Prop) (n : Network) (most : Nat) (e : Engine MemoryGraph) : Prop where
  sturdy : e.Sturdy n
  maxRechecks_eq : e.maxRechecks = most
  seen : ∀ t, e.view.sees t = true → t.MadeOf P
  held : ∀ r id token, (e.memory r).node? id = some token → token.triple.MadeOf P

theorem Able.weaken {Q : Node → Prop} (h : Able P n most e) (himp : ∀ m, P m → Q m) :
    Able Q n most e where
  sturdy := h.sturdy
  maxRechecks_eq := h.maxRechecks_eq
  seen t ht m hm := himp m (h.seen t ht m hm)
  held r id token hid m hm := himp m (h.held r id token hid m hm)

/-! ## What pieces of work do to triples and tokens -/

/-- Nothing has come into view, no token is new, and the rounds are as many as before. -/
structure Dwindles (e e' : Engine MemoryGraph) : Prop where
  maxRechecks_eq : e'.maxRechecks = e.maxRechecks
  sees : ∀ t, e'.view.sees t = true → e.view.sees t = true
  nodes : ∀ r id token, (e'.memory r).node? id = some token → (e.memory r).node? id = some token

theorem Dwindles.trans {e₁ : Engine MemoryGraph} (h : e.Dwindles e₁) (k : e₁.Dwindles e') :
    e.Dwindles e' where
  maxRechecks_eq := k.maxRechecks_eq.trans h.maxRechecks_eq
  sees t ht := h.sees t (k.sees t ht)
  nodes r id token hid := h.nodes r id token (k.nodes r id token hid)

theorem dwindles_of_agree (h : e' = { e with
      events := e'.events
      agenda := e'.agenda
      suspects := e'.suspects
      state := e'.state
      stats := e'.stats
      world := e'.world }) : e.Dwindles e' := by
  rw [h]
  exact ⟨rfl, fun _ ht => ht, fun _ _ _ hid => hid⟩

theorem Recedes.dwindles (h : e.Recedes e') : e.Dwindles e' where
  maxRechecks_eq := by rw [h.frame]
  sees _ ht := h.sees ht
  nodes r id token hid := by rwa [h.memory_eq] at hid

theorem dwindles_cleared (he : e.Stocked) {rule : Nat} {c : CompiledRule}
    (hc : e.network.rule? rule = some c) (t : Triple) : e.Dwindles (e.cleared rule t) where
  maxRechecks_eq := rfl
  sees _ ht := ht
  nodes r id token hid := by
    rw [memory_cleared (he.lt_length hc)] at hid
    split at hid
    · rename_i hrule
      subst hrule
      exact ((((he.2 rule).cleared_removeHolding t).node?_iff id token).1 hid).1
    · exact hid

theorem dwindles_setFiring {a : Activation} (ha : a.rule < e.memories.length) (new : Firing) :
    e.Dwindles (e.setFiring a new) where
  maxRechecks_eq := rfl
  sees _ ht := ht
  nodes r id token hid := by rwa [node?_setFiring ha] at hid

theorem Discards.dwindles {t : Triple} (h : e.Discards t e') (he : e.Sturdy n) : e.Dwindles e' := by
  induction h with
  | refl => exact dwindles_of_agree rfl
  | next hdiscards hc hrecedes _ ih =>
      have hstocked := (he.discards hdiscards).orderly.stocked
      exact (ih.trans (dwindles_cleared hstocked hc t)).trans hrecedes.dwindles

theorem Reviewed.dwindles {t : Triple} (h : e.Reviewed e' t) (he : e.Sturdy n) : e.Dwindles e' := by
  rcases h with ⟨hframe, _⟩ | ⟨hframe, _⟩
  · exact dwindles_of_agree (by rw [hframe])
  · have hwithdrawn := (recedes_withdrawn he.orderly.deductions t).dwindles
    refine hwithdrawn.trans (dwindles_of_agree ?_)
    rw [hframe]

theorem Reasked.dwindles {asked : List Activation} {changed : Bool}
    (h : e.Reasked asked changed e') (he : e.Sturdy n) : e.Dwindles e' := by
  induction h with
  | none => exact dwindles_of_agree rfl
  | next hreasked hc _ _ _ hreconsidered ih =>
      have hlt := (he.reasked hreasked).orderly.stocked.lt_length hc
      refine ih.trans ?_
      cases hreconsidered with
      | same _ _ hframe => exact dwindles_of_agree (by rw [hframe])
      | taken _ hframe hrecedes _ _ =>
          refine (dwindles_setFiring hlt .blocked).trans (Dwindles.trans ?_ hrecedes.dwindles)
          exact dwindles_of_agree (by rw [hframe])
      | again _ hframe =>
          refine (dwindles_setFiring hlt .pending).trans (dwindles_of_agree ?_)
          rw [hframe]
          rfl

theorem Able.dwindles (h : Able P n most e) (hsturdy : e'.Sturdy n) (hdwindles : e.Dwindles e') :
    Able P n most e' where
  sturdy := hsturdy
  maxRechecks_eq := hdwindles.maxRechecks_eq.trans h.maxRechecks_eq
  seen t ht := h.seen t (hdwindles.sees t ht)
  held r id token hid := h.held r id token (hdwindles.nodes r id token hid)

/-- No event tells that a triple has come. -/
def NoNews (e : Engine MemoryGraph) : Prop := ∀ t, Event.added t ∉ e.events

/-- No event tells that a triple has gone. -/
def NoLoss (e : Engine MemoryGraph) : Prop := ∀ t, Event.deleted t ∉ e.events

theorem noNews_of_events (h : e.events = []) : e.NoNews := fun t ht => by
  rw [h] at ht
  cases ht

theorem noLoss_of_events (h : e.events = []) : e.NoLoss := fun t ht => by
  rw [h] at ht
  cases ht

/-- To deal with an activation is to take it off the agenda.  It touches no token and
loses nothing, and what comes into view is made of the vocabulary. -/
structure Spends (P : Node → Prop) (e e' : Engine MemoryGraph) (agenda : List Activation) :
    Prop where
  maxRechecks_eq : e'.maxRechecks = e.maxRechecks
  agenda_eq : e'.agenda = agenda
  nextToken_eq : e'.nextToken = e.nextToken
  node?_eq : ∀ r id, (e'.memory r).node? id = (e.memory r).node? id
  sees : ∀ t, e'.view.sees t = true → e.view.sees t = true ∨ t.MadeOf P
  noLoss : e'.NoLoss

theorem Able.spends (h : Able P n most e) (hn : n.Modest) (hP : Spoken n P)
    {a : Activation} {agenda : List Activation} (hevents : e.events = [])
    (hdealt : Dealt { e with agenda, state := .firing } a e') : e.Spends P e' agenda := by
  have horderly := h.sturdy.orderly
  have hnone := noLoss_of_events hevents
  cases hdealt with
  | stale _ => exact ⟨rfl, rfl, rfl, fun _ _ => rfl, fun _ ht => Or.inl ht, hnone⟩
  | blocked _ hc _ _ hframe =>
      have hlt := horderly.stocked.lt_length hc
      rw [hframe]
      exact ⟨rfl, rfl, rfl, node?_setFiring hlt .blocked, fun _ ht => Or.inl ht, hnone⟩
  | @drawn c b st conclusions e₀ e₁ e₂ e' ha hc hb hevaluate _ hframe hadopts hpurges hsheds =>
      have hlt := horderly.stocked.lt_length hc
      have hnode := node?_setFiring hlt (.fired conclusions st.effects.hidden c.destructive)
      obtain ⟨hmatches, hlength⟩ := horderly.stocked.matches_of_bindings hc ha hb
      have hwired := horderly.wired
      have hsound := horderly.sound
      have hmatched : ∀ t ∈ e.matchedBy a, t.MadeOf P := by
        intro t ht
        obtain ⟨id, token, hid, rfl⟩ := mem_matchedBy_iff horderly.stocked ht
        exact h.held _ id token hid
      obtain ⟨hmade, hremoved, hdropped⟩ : (∀ t ∈ conclusions, t.MadeOf P) ∧
          st.effects.removed = [] ∧ st.effects.dropped = [] := by
        have hnetwork := h.sturdy.network_eq
        change e.network.rule? a.rule = some c at hc
        change c.evaluate e.network.registry (e.callContext c a false)
          { bindings := b, world := e.world } = _ at hevaluate
        rw [hnetwork] at hwired hc hevaluate
        exact hn.evaluate hwired hP hc hmatches hlength hmatched hsound hevaluate
      obtain rfl : e₂ = e₁ := hpurges.nothing hremoved
      obtain rfl : e' = e₂ := hsheds.nothing hdropped
      refine ⟨?_, ?_, ?_, ?_, ?_, ?_⟩
      · rw [hadopts.frame, hframe]
        rfl
      · rw [hadopts.frame, hframe]
        rfl
      · rw [hadopts.frame, hframe]
        rfl
      · intro r id
        rw [hadopts.memory_eq, hframe]
        exact hnode r id
      · intro t ht
        rw [hadopts.sees_eq, Bool.or_eq_true] at ht
        rcases ht with ht | ht
        · rw [hframe] at ht
          exact Or.inl ht
        · obtain ⟨u, hu, hsame⟩ := List.any_eq_true.1 ht
          exact Or.inr (hP.vocabulary.madeOf_congr hsame (hmade u hu))
      · obtain ⟨ts, hts, _⟩ := hadopts.announces
        intro t ht
        rw [hts, List.mem_append] at ht
        rcases ht with ht | ht
        · rw [hframe] at ht
          exact hnone t ht
        · obtain ⟨_, _, hcontra⟩ := List.mem_map.1 ht
          cases hcontra

theorem Able.worked (h : Able P n most e) (hn : n.Modest) (hP : Spoken n P)
    {answer : Option Nat} (hworks : e.Works rechecks answer e') : Able P n most e' := by
  have hsturdy := h.sturdy.worked hworks
  have hpart : ∀ {events : List Event} {agenda : List Activation} {suspects : OrderedSet Triple}
      {state : EngineState} {stats : EngineStats},
      Sturdy n { e with events, agenda, suspects, state, stats } ∧
        e.Dwindles { e with events, agenda, suspects, state, stats } :=
    ⟨h.sturdy.of_agree rfl, dwindles_of_agree rfl⟩
  cases hworks with
  | late | back | rested => exact h.dwindles hsturdy (dwindles_of_agree rfl)
  | entered _ henters =>
      have hgrown := henters.grown
      refine ⟨hsturdy, ?_, fun t ht => ?_, fun r id token hid => ?_⟩
      · rw [hgrown.frame]
        exact h.maxRechecks_eq
      · rw [hgrown.view_eq] at ht
        exact h.seen t ht
      · rcases hgrown.fresh r id token hid with hold | ⟨hseen, _⟩
        · exact h.held r id token hold
        · exact h.seen _ hseen
  | left _ hdiscards =>
      exact h.dwindles hsturdy (hpart.2.trans (hdiscards.dwindles hpart.1))
  | dealt hevents _ hdealt =>
      have hspends := h.spends hn hP hevents hdealt
      refine ⟨hsturdy, hspends.maxRechecks_eq.trans h.maxRechecks_eq, fun t ht => ?_,
        fun r id token hid => ?_⟩
      · exact (hspends.sees t ht).elim (h.seen t) id
      · rw [hspends.node?_eq] at hid
        exact h.held r id token hid
  | reviewed _ _ _ hreviewed =>
      exact h.dwindles hsturdy (hpart.2.trans (hreviewed.dwindles hpart.1))
  | changed _ _ hreasked =>
      exact h.dwindles hsturdy (hpart.2.trans (hreasked.dwindles hpart.1))

/-! ## Requests -/

/-- Whether it was able or not, an engine that starts over is able. -/
theorem ends_restart_able (hnetwork : e.network = n) (hwired : n.Wired) (hbase : e.base.Sound)
    (hmade : ∀ t, e.base.contains t = true → t.MadeOf P) :
    Work.restart.Ends e fun _ e' => Able P n e.maxRechecks e' ∧ (e'.NoNews ∨ e'.NoLoss) := by
  subst hnetwork
  refine (Work.ends_restart hbase).mono fun _ e' h => ?_
  refine ⟨⟨h.sturdy hwired hbase, ?_, fun t ht => ?_, fun r id token hid => ?_⟩,
    Or.inr fun t ht => ?_⟩
  · rw [h.frame]
    rfl
  · change (e'.base.contains t || e'.deductions.contains t) = true at ht
    rw [h.base_eq, h.deductions_eq, MemoryGraph.contains_empty, Bool.or_false] at ht
    exact hmade t ht
  · rw [h.nodes] at hid
    cases hid
  · obtain ⟨u, hu⟩ := h.news _ ht
    cases hu

namespace Able

theorem ends_add (h : Able P n most e) (hP : Vocabulary P) (hevents : e.events = [])
    {t : Triple} (ht : t.isGround = true) (hmade : t.MadeOf P) :
    (Work.addToBase t).Ends e fun _ e' => Able P n most e' ∧ (e'.NoNews ∨ e'.NoLoss) := by
  refine (Work.ends_addToBase h.sturdy.orderly.base ht).mono ?_
  rintro _ _ ⟨_, rfl⟩
  refine ⟨⟨h.sturdy.expanded ht, h.maxRechecks_eq, fun u hu => ?_, h.held⟩, Or.inr fun u hu => ?_⟩
  · rw [sees_expanded h.sturdy.orderly.base ht, Bool.or_eq_true] at hu
    exact hu.elim (h.seen u) fun hsame => hP.madeOf_congr hsame hmade
  · change Event.deleted u ∈ (if e.view.sees t = true then e.events else _) at hu
    rw [hevents] at hu
    split at hu
    · cases hu
    · cases List.mem_singleton.1 hu

theorem ends_delete (h : Able P n most e) (hevents : e.events = []) (t : Triple) :
    (Work.deleteVisible t).Ends e fun _ e' => Able P n most e' ∧ (e'.NoNews ∨ e'.NoLoss) := by
  have horderly := h.sturdy.orderly
  refine (Work.ends_deleteVisible horderly.base horderly.deductions t).mono ?_
  rintro _ _ ⟨_, rfl⟩
  refine ⟨h.dwindles (h.sturdy.reduced t) ⟨?_, fun u hu => ?_, fun r id token hid => ?_⟩,
    Or.inl fun u hu => ?_⟩
  · unfold Engine.reduced
    split <;> split <;> rfl
  · exact sees_of_sees_reduced horderly.base horderly.deductions t hu
  · have hmemory : (e.reduced t).memory r = e.memory r := by
      unfold Engine.reduced
      split <;> split <;> rfl
    rwa [hmemory] at hid
  · unfold Engine.reduced at hu
    split at hu <;> split at hu <;> simp [hevents] at hu

theorem queue (h : Able P n most e) (hevents : e.events = []) (event : Event) :
    Able P n most (e.queue event) ∧ ((e.queue event).NoNews ∨ (e.queue event).NoLoss) := by
  refine ⟨h.dwindles (h.sturdy.of_agree rfl) (dwindles_of_agree rfl), ?_⟩
  have hone : (e.queue event).events = [event] := by
    change e.events ++ [event] = _
    rw [hevents]
    rfl
  cases event with
  | added t =>
      refine Or.inr fun u hu => ?_
      rw [hone] at hu
      cases List.mem_singleton.1 hu
  | deleted t =>
      refine Or.inl fun u hu => ?_
      rw [hone] at hu
      cases List.mem_singleton.1 hu

/-- While nothing waits, a request is refused or leaves events of one kind only. -/
theorem request (h : Able P n most e) (hP : Vocabulary P) (hevents : e.events = [])
    {o : Operation} (ho : o ≠ .close) (hmade : ∀ t, o = .add t → t.MadeOf P) :
    (∃ t, o = .add t ∧ t.isGround = false ∧
      o.request e = .error (.graph (.invalidTriple t)) e) ∨
    o.request.Ends e fun _ e' => Able P n most e' ∧ (e'.NoNews ∨ e'.NoLoss) := by
  rcases h.sturdy.request ho with hrefused | ⟨hground, _⟩
  · exact Or.inl hrefused
  right
  cases o with
  | recompute =>
      have horderly := h.sturdy.orderly
      have hbase : ∀ t, e.base.contains t = true → t.MadeOf P := fun t ht => h.seen t
        (show (e.base.contains t || e.deductions.contains t) = true by rw [ht, Bool.true_or])
      have hends := ends_restart_able h.sturdy.network_eq (h.sturdy.network_eq ▸ horderly.wired)
        horderly.base hbase
      rw [h.maxRechecks_eq] at hends
      exact hends
  | add t => exact (h.ends_add hP hevents (hground t rfl) (hmade t rfl)).bind fun _ _ h => h
  | delete t => exact (h.ends_delete hevents t).bind fun _ _ h => h
  | announce event => exact Work.ends_modify.2 (h.queue hevents event)
  | close => exact absurd rfl ho

end Able

/-! ## Runs -/

/-- A run that ends leaves an able engine at rest. -/
theorem Able.run (h : Able P n most e) (hn : n.Modest) (hP : Spoken n P) (budget rechecks : Nat) :
    e.run budget rechecks = .unfinished ∨ ∃ e', e.run budget rechecks = .done () e' ∧
      Able P n most e' ∧ e'.Quiet ∧ e'.state = .idle := by
  induction budget generalizing rechecks e with
  | zero => exact Or.inl rfl
  | succ budget ih =>
      obtain ⟨answer, e₁, hstep, hworks⟩ :=
        (Work.ends_step_of_sturdy h.sturdy hn.concrete rechecks).exists_ok
      have hable := h.worked hn hP hworks
      rw [Engine.run, hstep]
      cases answer with
      | some more => exact ih hable more
      | none =>
          have hquiet := hworks.quiet
          exact Or.inr ⟨_, rfl, hable.dwindles (hable.sturdy.of_agree rfl) (dwindles_of_agree rfl),
            ⟨hquiet.events, hquiet.agenda, hquiet.suspects⟩, rfl⟩

end Engine

end Entailment
