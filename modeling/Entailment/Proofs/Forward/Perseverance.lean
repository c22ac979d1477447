import Entailment.Proofs.Forward.Diligence

/-!
# Diligence is kept

Whatever piece of work a diligent engine does, it stays diligent, and so it does when it
starts over or when its base is changed.
-/

namespace Entailment

namespace Engine

variable {e e' : Engine MemoryGraph} {P : Node → Prop}

/-! ## Firing -/

/-- A vocabulary of nodes that are not nested, to which the heads of all rules keep. -/
structure Spoken (n : Network) (P : Node → Prop) : Prop where
  vocabulary : Vocabulary P
  flat : ∀ m, P m → m.isNested = false
  heads : ∀ r c, n.rule? r = some c → c.rule.SpeaksIn P

section Firing

variable {a : Activation} {c : CompiledRule}

/-- What the evaluation of an activation comes to while no deletion waits. -/
theorem Diligent.evaluate_cases (he : e.Diligent P) (hP : Spoken e.network P)
    (hconsistent : e.Consistent nothingGone) (hquiet : ∀ t, ¬ e.Announced t)
    (helementary : e.network.Elementary) (hc : e.network.rule? a.rule = some c) {b : Bindings}
    (hmatches : c.Matches (e.matchedBy a) b) (hlength : (e.matchedBy a).length = c.levels)
    {world : World} {answer : Option (List Triple)} {st : CallState}
    (h : c.evaluate e.network.registry (e.callContext c a false) { bindings := b, world } =
      (answer, st)) :
    (answer = none ∧ ¬ c.rule.CallsHold e.network.registry e.view b) ∨
      ∃ conclusions, answer = some conclusions ∧
        c.rule.CallsHold e.network.registry e.view b ∧ st.effects.removed = [] ∧
        ∀ t, conclusions.any (· == t) = true ↔
          ∃ p, Clause.pattern p ∈ c.rule.head ∧ p.Fits b.assignment t := by
  obtain ⟨hrule, hfair⟩ := helementary.rule a.rule c hc
  have hof := hconsistent.wired.eq_ofRule hc
  have hheld : ∀ i ∈ c.rule.boundIndexes, ∃ m, b.held? i = some m ∧ m.isNested = false := by
    intro i hi
    obtain ⟨m, hm, hvalue⟩ :=
      he.values hP.vocabulary hconsistent hquiet hc hmatches hlength i hi
    exact ⟨m, hm, hP.flat m hvalue⟩
  rw [hof] at h
  exact hrule.evaluate_cases hfair hconsistent.sound _ hmatches.ground hheld h

/-- An activation that fires has nothing removed. -/
theorem Diligent.removed_eq (he : e.Diligent P) (hP : Spoken e.network P)
    (hconsistent : e.Consistent nothingGone) (hquiet : ∀ t, ¬ e.Announced t)
    (helementary : e.network.Elementary) (hc : e.network.rule? a.rule = some c)
    {firing : Firing} (ha : e.firing? a = some firing) {b : Bindings}
    (hb : c.bindings (e.matchedBy a) = .ok b) {world : World} {conclusions : List Triple}
    {st : CallState}
    (h : c.evaluate e.network.registry (e.callContext c a false) { bindings := b, world } =
      (some conclusions, st)) : st.effects.removed = [] := by
  obtain ⟨hmatches, hlength⟩ := hconsistent.stocked.matches_of_bindings hc ha hb
  rcases he.evaluate_cases hP hconsistent hquiet helementary hc hmatches hlength h with
    ⟨hcontra, _⟩ | ⟨_, _, _, hremoved, _⟩
  · cases hcontra
  · exact hremoved

variable {agenda : List Activation}

theorem Diligent.blocked (he : e.Diligent P) (hP : Spoken e.network P)
    (hconsistent : e.Consistent nothingGone) (helementary : e.network.Elementary)
    (hevents : e.events = []) (hagenda : e.agenda = a :: agenda)
    (hc : e.network.rule? a.rule = some c) (ha : e.firing? a = some .pending) {b : Bindings}
    (hb : c.bindings (e.matchedBy a) = .ok b) {st : CallState}
    (heval : c.evaluate e.network.registry (e.callContext c a false)
      { bindings := b, world := e.world } = (none, st)) {world : World} {stats : EngineStats} :
    Diligent P { e.setFiring a .blocked with
      agenda, state := .firing, world, stats } := by
  have hlt := hconsistent.stocked.lt_length hc
  have hquiet := not_announced_of_events hevents
  obtain ⟨hmatches, hlength⟩ := hconsistent.stocked.matches_of_bindings hc ha hb
  have hnone : ∀ a u, ¬ e.Astray a u := fun _ _ => he.prudent.not_astray_of_agenda hagenda
  have hrefuted : ¬ c.rule.CallsHold e.network.registry e.view b := by
    rcases he.evaluate_cases hP hconsistent hquiet helementary hc hmatches hlength heval with
      ⟨_, hnot⟩ | ⟨_, hsome, _⟩
    · exact hnot
    · cases hsome
  have hreplaces : e.Replaces { e.setFiring a .blocked with
      agenda, state := .firing, world, stats } a .blocked := ⟨rfl, rfl⟩
  constructor
  case toThorough =>
    exact he.toThorough.fired hconsistent hevents (.blocked ha hc hb heval rfl)
  case waiting =>
    refine hreplaces.waiting hlt he (fun h => nomatch h) fun b' hb' hne => ?_
    rw [hagenda] at hb'
    exact (List.mem_cons.1 hb').resolve_left hne
  case proper =>
    refine hreplaces.proper hlt he hc fun hmonotonic b' v hb' => ?_
    obtain rfl := hmatches.unique hb'
    rw [helementary.callsHold_anywhere hconsistent.wired hc hmonotonic hmatches.ground v e.view]
    exact hrefuted
  case held => exact he.held
  case uncommitted => exact he.uncommitted
  case madeOf => exact he.madeOf
  case astray =>
    exact fun b' u hat =>
      absurd hat (Prudent.not_astray_setFiring hnone hlt not_concludes_blocked b' u)

/-- An activation that fires draws the instances of its head. -/
theorem Diligent.drawn (he : e.Diligent P) (hP : Spoken e.network P)
    (hconsistent : e.Consistent nothingGone) (hbacked : e.Backed)
    (helementary : e.network.Elementary) (hevents : e.events = [])
    (hagenda : e.agenda = a :: agenda) (hc : e.network.rule? a.rule = some c)
    (ha : e.firing? a = some .pending) {b : Bindings}
    (hb : c.bindings (e.matchedBy a) = .ok b) {st : CallState} {conclusions : List Triple}
    (heval : c.evaluate e.network.registry (e.callContext c a false)
      { bindings := b, world := e.world } = (some conclusions, st))
    {e₀ e₁ : Engine MemoryGraph} (hnoted : e₀ =
      { e.setFiring a (.fired conclusions st.effects.hidden c.destructive) with
        agenda, state := .firing, world := e₀.world, stats := e₀.stats, hidden := e₀.hidden })
    (hadopts : e₀.Adopts e₁ a c.destructive conclusions)
    (hpurges : e₁.Purges e' st.effects.removed) (hbacked' : e'.Backed) : e'.Diligent P := by
  have hlt := hconsistent.stocked.lt_length hc
  have hquiet := not_announced_of_events hevents
  obtain ⟨hmatches, hlength⟩ := hconsistent.stocked.matches_of_bindings hc ha hb
  have hnone : ∀ a u, ¬ e.Astray a u := fun _ _ => he.prudent.not_astray_of_agenda hagenda
  have hdestructive := helementary.not_destructive hconsistent.wired hc
  obtain ⟨hholds, hremoved, hinstances⟩ : c.rule.CallsHold e.network.registry e.view b ∧
      st.effects.removed = [] ∧ ∀ t, conclusions.any (· == t) = true ↔
        ∃ p, Clause.pattern p ∈ c.rule.head ∧ p.Fits b.assignment t := by
    rcases he.evaluate_cases hP hconsistent hquiet helementary hc hmatches hlength heval with
      ⟨hcontra, _⟩ | ⟨_, hsome, hholds, hremoved, hinstances⟩
    · cases hcontra
    · cases hsome
      exact ⟨hholds, hremoved, hinstances⟩
  have hthorough : e'.Thorough :=
    he.toThorough.fired hconsistent hevents (.drawn ha hc hb heval hnoted hadopts hpurges)
  -- Nothing was asked to be removed.
  obtain rfl : e' = e₁ := hpurges.nothing hremoved
  rw [hdestructive] at hadopts
  have hbase : e₀.base = e.base := by rw [hnoted]; rfl
  have hdeductions₀ : e₀.deductions = e.deductions := by rw [hnoted]; rfl
  have hsees : ∀ u, e'.view.sees u = (e.view.sees u || conclusions.any (· == u)) := by
    intro u
    rw [hadopts.sees_eq]
    unfold View.sees view
    rw [hbase, hdeductions₀]
  have hprudent := he.prudent.drawn hnone hbacked hdeductions₀ (by rw [hnoted]; rfl)
    (by rw [hnoted]; rfl) hadopts hbacked'
  have huncommitted : ∀ u, e'.committed.contains u = false := by
    intro u
    have hcommitted : e₀.committed = e.committed := by rw [hnoted]; rfl
    rw [hadopts.committed_eq, hcommitted, he.uncommitted]
    rfl
  have hreplaces : e.Replaces e' a (.fired conclusions st.effects.hidden c.destructive) := by
    refine ⟨?_, ?_⟩
    · rw [hadopts.frame, hnoted]
      rfl
    · rw [hadopts.memories_eq, hnoted]
  have hagenda' : e'.agenda = agenda := by rw [hadopts.frame, hnoted]
  constructor
  case toThorough => exact hthorough
  case waiting =>
    refine hreplaces.waiting hlt he (fun h => nomatch h) fun b' hb' hne => ?_
    rw [hagenda] at hb'
    rw [hagenda']
    exact (List.mem_cons.1 hb').resolve_left hne
  case proper =>
    refine hreplaces.proper hlt he hc ⟨hdestructive, fun b' hb' => ?_⟩
    obtain rfl := hmatches.unique hb'
    refine ⟨fun hmonotonic v => ?_, hinstances⟩
    rw [helementary.callsHold_anywhere hconsistent.wired hc hmonotonic hmatches.ground v e.view]
    exact hholds
  case held => exact fun u hu => hprudent.held_of_uncommitted huncommitted hu
  case uncommitted => exact huncommitted
  case madeOf =>
    intro u hu
    rw [hsees, Bool.or_eq_true] at hu
    rcases hu with hu | hu
    · exact he.madeOf u hu
    · obtain ⟨p, hp, hfits⟩ := (hinstances u).1 hu
      refine (helementary.rule a.rule c hc).1.madeOf_head hP.vocabulary (hP.heads _ c hc)
        (fun i hi => ?_) hp hfits
      obtain ⟨m, hm, hvalue⟩ :=
        he.values hP.vocabulary hconsistent hquiet hc hmatches hlength i hi
      rw [Bindings.assignment, hm]
      exact hvalue
  case astray => exact hprudent.astray

theorem Diligent.fired (he : e.Diligent P) (hP : Spoken e.network P)
    (hconsistent : e.Consistent nothingGone) (hbacked : e.Backed)
    (helementary : e.network.Elementary) (hevents : e.events = [])
    (hagenda : e.agenda = a :: agenda)
    (hfired : Fired { e with agenda, state := .firing } a e') (hbacked' : e'.Backed) :
    e'.Diligent P := by
  cases hfired with
  | stale hstale =>
      refine he.requeue (fun t ht _ => ht) (fun b hb hpending => ?_) fun b u hastray => ?_
      · rw [hagenda] at hb
        rcases List.mem_cons.1 hb with rfl | hb
        · exact absurd hpending hstale
        · exact hb
      · exact absurd hastray (he.prudent.not_astray_of_agenda hagenda)
  | blocked ha hc hb heval heq =>
      rw [heq]
      exact he.blocked hP hconsistent helementary hevents hagenda hc ha hb heval
  | drawn ha hc hb heval hnoted hadopts hpurges =>
      exact he.drawn hP hconsistent hbacked helementary hevents hagenda hc ha hb heval hnoted
        hadopts hpurges hbacked'

end Firing

/-! ## Checking suspects -/

theorem Diligent.reviewed (he : e.Diligent P) (hconsistent : e.Consistent nothingGone)
    (hbacked : e.Backed) (hevents : e.events = []) (hagenda : e.agenda = [])
    {t : Triple} {suspects : OrderedSet Triple}
    (hreviewed : Reviewed { e with suspects } e' t) : e'.Diligent P := by
  have hnews : ∀ u, Event.added u ∉ e.events := by
    intro u hu
    rw [hevents] at hu
    cases hu
  have hprudent := he.prudent.reviewed hconsistent.deductions hbacked hevents hagenda hreviewed
  have hthorough := he.toThorough.reviewed hconsistent.deductions hreviewed
  rcases hreviewed with ⟨heq, _⟩ | ⟨heq, hdeduced, hbase, hnot⟩
  · rw [heq]
    exact he.requeue (fun u hu _ => hu) (fun _ ha _ => ha) fun _ _ _ => ⟨hagenda, hnews⟩
  · have hcontains : ∀ u, e'.deductions.contains u = (e.deductions.contains u && !(t == u)) := by
      intro u
      rw [heq]
      exact hconsistent.deductions.contains_minus t u
    have hsees : ∀ u, e'.view.sees u = true → e.view.sees u = true := by
      intro u hu
      unfold View.sees at hu ⊢
      rw [Bool.or_eq_true] at hu ⊢
      rcases hu with hu | hu
      · left
        have hsame : e'.view.base = e.view.base := by rw [heq]; rfl
        exact hsame ▸ hu
      · right
        have hkept := hcontains u
        rw [show e'.deductions.contains u = true from hu] at hkept
        exact (Bool.and_eq_true_iff.1 hkept.symm).1
    have hfields : e' = { e with
        suspects := e'.suspects
        stats := e'.stats
        events := e'.events
        deductions := e'.deductions } := by
      rw [heq]
      rfl
    have huncommitted : ∀ u, e'.committed.contains u = false := by
      rw [hfields]
      exact he.uncommitted
    constructor
    case toThorough => exact hthorough
    case waiting =>
      rw [hfields]
      exact he.waiting
    case proper =>
      rw [hfields]
      exact he.proper
    case held => exact fun u hu => hprudent.held_of_uncommitted huncommitted hu
    case uncommitted => exact huncommitted
    case madeOf => exact fun u hu => he.madeOf u (hsees u hu)
    case astray => exact hprudent.astray

/-! ## Asking again -/

section Asking

variable {a : Activation} {c : CompiledRule} {firing : Firing} {fired answer : Bool}

/-- A firing that is taken back leaves an activation blocked and nothing astray. -/
theorem Diligent.taken (he : e.Diligent P) (hnone : ∀ b t, ¬ e.Astray b t)
    (hconsistent : e.Consistent nothingGone) (hbacked : e.Backed)
    (hc : e.network.rule? a.rule = some c) (ha : e.firing? a = some firing)
    (hnonMonotonic : c.nonMonotonic = true) {e₁ : Engine MemoryGraph}
    (hblocked : e₁ = { e.setFiring a .blocked with world := e₁.world })
    (hrecedes : e₁.Recedes e') (habandons : e₁.Abandons e') (hbacked' : e'.Backed) :
    e'.Diligent P ∧ ∀ b t, ¬ e'.Astray b t := by
  have hlt := hconsistent.stocked.lt_length hc
  have hevents : e₁.events = e.events := by rw [hblocked]; rfl
  have hview : e₁.view = e.view := by rw [hblocked]; rfl
  have hagenda : e'.agenda = e.agenda := by
    rw [hrecedes.frame, hblocked]
    rfl
  have hreplaces : e.Replaces e' a .blocked := by
    refine ⟨?_, ?_⟩
    · rw [hrecedes.network_eq, hblocked]
      rfl
    · rw [hrecedes.memories_eq, hblocked]
  have hsees : ∀ u, e'.view.sees u = true → e.view.sees u = true := fun u hu =>
    hview ▸ hrecedes.sees hu
  obtain ⟨hprudent, hastray⟩ := he.prudent.reconsidered hnone hconsistent.stocked hbacked hc
    (.taken rfl hblocked hrecedes habandons hbacked')
  have huncommitted : ∀ t, e'.committed.contains t = false := by
    intro t
    rw [hrecedes.committed_eq, hblocked]
    exact he.uncommitted t
  refine ⟨?_, hastray⟩
  constructor
  case toThorough =>
    refine he.recast (hreplaces.sameMatches hlt ha) (fun u hu => Or.inl (hsees u hu))
      fun t ht _ => ?_
    rw [hrecedes.added_mem_iff, hevents]
    exact ht
  case waiting =>
    refine hreplaces.waiting hlt he (fun h => nomatch h) fun b hb _ => ?_
    rw [hagenda]
    exact hb
  case proper =>
    refine hreplaces.proper hlt he hc fun hmonotonic => ?_
    rw [hnonMonotonic] at hmonotonic
    cases hmonotonic
  case held => exact fun t ht => hprudent.held_of_uncommitted huncommitted ht
  case uncommitted => exact huncommitted
  case madeOf => exact fun u hu => he.madeOf u (hsees u hu)
  case astray => exact hprudent.astray

/-- An activation that is to fire again waits, and leaves nothing astray. -/
theorem Diligent.again (he : e.Diligent P) (hnone : ∀ b t, ¬ e.Astray b t)
    (hconsistent : e.Consistent nothingGone) (hc : e.network.rule? a.rule = some c)
    (ha : e.firing? a = some firing) {world : World} :
    Diligent P { e.schedule a with world } ∧
      ∀ b t, ¬ Astray { e.schedule a with world } b t := by
  have hlt := hconsistent.stocked.lt_length hc
  have hreplaces : e.Replaces { e.schedule a with world } a .pending := ⟨rfl, rfl⟩
  have hastray : ∀ b t, ¬ Astray { e.schedule a with world } b t := fun b t h =>
    Prudent.not_astray_setFiring hnone hlt not_concludes_pending b t h
  refine ⟨?_, hastray⟩
  constructor
  case toThorough =>
    exact he.recast (hreplaces.sameMatches hlt ha) (fun u hu => Or.inl hu) fun t ht _ => ht
  case waiting =>
    exact hreplaces.waiting hlt he (fun _ => List.mem_append_right _ (List.mem_singleton.2 rfl))
      fun b hb _ => List.mem_append_left _ hb
  case proper => exact hreplaces.proper hlt he hc trivial
  case held => exact he.held
  case uncommitted => exact he.uncommitted
  case madeOf => exact he.madeOf
  case astray => exact fun b t h => absurd h (hastray b t)

theorem Diligent.reconsidered (he : e.Diligent P) (hnone : ∀ b t, ¬ e.Astray b t)
    (hconsistent : e.Consistent nothingGone) (hbacked : e.Backed)
    (hc : e.network.rule? a.rule = some c) (ha : e.firing? a = some firing)
    (hnonMonotonic : c.nonMonotonic = true)
    (hreconsidered : e.Reconsidered c a fired answer e') :
    e'.Diligent P ∧ ∀ b t, ¬ e'.Astray b t := by
  cases hreconsidered with
  | same _ _ heq =>
      rw [heq]
      exact ⟨he.requeue (fun _ ht _ => ht) (fun _ hb _ => hb) fun b t h => absurd h (hnone b t),
        hnone⟩
  | taken _ hblocked hrecedes habandons hbacked' =>
      exact he.taken hnone hconsistent hbacked hc ha hnonMonotonic hblocked hrecedes habandons
        hbacked'
  | again _ heq =>
      rw [heq]
      exact he.again hnone hconsistent hc ha

theorem Diligent.reasked (he : e.Diligent P) (hnone : ∀ b t, ¬ e.Astray b t)
    (hconsistent : e.Consistent nothingGone) (hbacked : e.Backed) {asked : List Activation}
    {changed : Bool} (h : e.Reasked asked changed e') :
    e'.Diligent P ∧ ∀ b t, ¬ e'.Astray b t := by
  induction h with
  | none => exact ⟨he, hnone⟩
  | next hreasked hc hnonMonotonic hfiring _ hreconsidered ih =>
      obtain ⟨hconsistent₁, hbacked₁⟩ := hreasked.sound hconsistent hbacked
      exact ih.1.reconsidered ih.2 hconsistent₁ hbacked₁ hc hfiring hnonMonotonic hreconsidered

end Asking

/-! ## Steps and runs -/

/-- An event may be forgotten that is no news of anything in view. -/
theorem Diligent.next_event (he : e.Diligent P) {event : Event} {events : List Event}
    (hevents : e.events = event :: events)
    (hunseen : ∀ t, event = .added t → e.view.sees t = false) {state : EngineState}
    {stats : EngineStats} : Diligent P { e with events, state, stats } := by
  refine he.requeue (fun t ht hseen => ?_) (fun _ ha _ => ha) fun a t hastray => ?_
  · rw [hevents] at ht
    rcases List.mem_cons.1 ht with ht | ht
    · rw [hunseen t ht.symm] at hseen
      cases hseen
    · exact ht
  · obtain ⟨hagenda, hnews, _⟩ := he.astray a t hastray
    refine ⟨hagenda, fun u hu => hnews u ?_⟩
    rw [hevents]
    exact List.mem_cons_of_mem _ hu

/-- A piece of work leaves a diligent engine diligent. -/
theorem Diligent.stepped (he : e.Diligent P) (hsteady : e.Steady) (hP : Spoken e.network P)
    (helementary : e.network.Elementary) {rechecks : Nat} {answer : Option Nat}
    (h : e.Stepped rechecks answer e') : e'.Diligent P := by
  have hconsistent := hsteady.consistent
  have hsteady' := h.steady hsteady
  cases h with
  | late hevents hunseen =>
      refine he.next_event hevents fun t ht => ?_
      cases ht
      exact hunseen
  | entered hevents henters =>
      exact he.enters hconsistent (helementary.overt hconsistent.wired) hevents henters
  | back hevents _ => exact he.next_event hevents fun t ht => nomatch ht
  | left hevents _ hforgets _ _ =>
      exact hforgets.survives (Diligent.survives P _) (he.next_event hevents fun t ht => nomatch ht)
  | fired hevents hagenda hfired =>
      exact he.fired hP hconsistent hsteady.backed helementary hevents hagenda hfired
        hsteady'.backed
  | reviewed hevents hagenda _ hreviewed =>
      exact he.reviewed hconsistent hsteady.backed hevents hagenda hreviewed
  | settled => exact he
  | @changed stats asked e' hquiet _ hreasked =>
      have hnone := he.prudent.not_astray hsteady hquiet
      have hstats : Diligent P { e with stats } :=
        he.requeue (fun _ ht _ => ht) (fun _ ha _ => ha) fun a t h => absurd h (hnone a t)
      have hsteady₀ : Steady { e with stats } := hsteady.of_agree rfl
      exact (hstats.reasked hnone hsteady₀.consistent hsteady₀.backed hreasked).1
  | upheld hquiet _ =>
      exact he.requeue (fun _ ht _ => ht) (fun _ ha _ => ha) fun a t h =>
        absurd h (he.prudent.not_astray hsteady hquiet a t)

/-- What an engine is set up with: no piece of work changes it, as long as nothing asks
for removals. -/
structure SetUpLike (e' e : Engine MemoryGraph) : Prop where
  network_eq : e'.network = e.network
  base_eq : e'.base = e.base
  maxRechecks_eq : e'.maxRechecks = e.maxRechecks

theorem SetUpLike.trans {e₁ : Engine MemoryGraph} (h : e'.SetUpLike e₁) (k : e₁.SetUpLike e) :
    e'.SetUpLike e :=
  ⟨h.network_eq.trans k.network_eq, h.base_eq.trans k.base_eq,
    h.maxRechecks_eq.trans k.maxRechecks_eq⟩

theorem Recedes.setUpLike (h : e.Recedes e') : e'.SetUpLike e := by
  refine ⟨h.network_eq, h.base_eq, ?_⟩
  rw [h.frame]

theorem Forgets.setUpLike {t : Triple} (h : e.Forgets t e') : e'.SetUpLike e := by
  induction h with
  | refl => exact ⟨rfl, rfl, rfl⟩
  | @next e₁ _ _ rule _ _ _ _ _ _ hrecedes _ _ ih =>
      have hcleared : (e₁.cleared rule t).SetUpLike e₁ := ⟨rfl, rfl, rfl⟩
      exact (hrecedes.setUpLike.trans hcleared).trans ih

theorem Diligent.fired_setUpLike (he : e.Diligent P) (hP : Spoken e.network P)
    (hconsistent : e.Consistent nothingGone) (helementary : e.network.Elementary)
    (hevents : e.events = []) {a : Activation} {agenda : List Activation}
    (hfired : Fired { e with agenda, state := .firing } a e') : e'.SetUpLike e := by
  cases hfired with
  | stale => exact ⟨rfl, rfl, rfl⟩
  | blocked _ _ _ _ heq =>
      rw [heq]
      exact ⟨rfl, rfl, rfl⟩
  | @drawn c b st conclusions e₀ e₁ e' ha hc hb heval hnoted hadopts hpurges =>
      have hremoved := he.removed_eq hP hconsistent (not_announced_of_events hevents)
        helementary hc ha hb heval
      obtain rfl : e' = e₁ := hpurges.nothing hremoved
      have hnoted' : e₀.SetUpLike e := by
        rw [hnoted]
        exact ⟨rfl, rfl, rfl⟩
      refine SetUpLike.trans ⟨?_, hadopts.base_eq, ?_⟩ hnoted'
      · rw [hadopts.frame]
      · rw [hadopts.frame]

theorem Reasked.setUpLike {asked : List Activation} {changed : Bool}
    (h : e.Reasked asked changed e') : e'.SetUpLike e := by
  induction h with
  | none => exact ⟨rfl, rfl, rfl⟩
  | next _ _ _ _ _ hreconsidered ih =>
      refine SetUpLike.trans ?_ ih
      cases hreconsidered with
      | same _ _ heq =>
          rw [heq]
          exact ⟨rfl, rfl, rfl⟩
      | taken _ hblocked hrecedes _ _ =>
          refine hrecedes.setUpLike.trans ?_
          rw [hblocked]
          exact ⟨rfl, rfl, rfl⟩
      | again _ heq =>
          rw [heq]
          exact ⟨rfl, rfl, rfl⟩

theorem Diligent.stepped_setUpLike (he : e.Diligent P) (hsteady : e.Steady)
    (hP : Spoken e.network P) (helementary : e.network.Elementary) {rechecks : Nat}
    {answer : Option Nat} (h : e.Stepped rechecks answer e') : e'.SetUpLike e := by
  cases h with
  | late | back | settled | upheld => exact ⟨rfl, rfl, rfl⟩
  | entered _ henters =>
      refine ⟨henters.grown.network_eq, henters.grown.base_eq, ?_⟩
      rw [henters.grown.frame]
  | left _ _ hforgets _ _ => exact hforgets.setUpLike.trans ⟨rfl, rfl, rfl⟩
  | fired hevents _ hfired =>
      exact he.fired_setUpLike hP hsteady.consistent helementary hevents hfired
  | reviewed _ _ _ hreviewed =>
      rcases hreviewed with ⟨heq, _⟩ | ⟨heq, _⟩
      · rw [heq]
        exact ⟨rfl, rfl, rfl⟩
      · rw [heq]
        exact ⟨rfl, rfl, rfl⟩
  | changed _ _ hreasked => exact hreasked.setUpLike.trans ⟨rfl, rfl, rfl⟩

/-- What is known of an engine that has run until nothing waits. -/
structure Ran (P : Node → Prop) (e : Engine MemoryGraph) (last : Nat) (e' : Engine MemoryGraph) :
    Prop where
  diligent : e'.Diligent P
  setUpLike : e'.SetUpLike e
  upheld : e.network.isMonotonic = true ∨ last < e.maxRechecks →
    e'.network.isMonotonic = true ∨ ∀ a, e'.Upheld a

/-- A run leaves a diligent engine diligent, and if it has not asked again too often, all
answers stand. -/
theorem Diligent.ran (he : e.Diligent P) (hsteady : e.Steady) (hP : Spoken e.network P)
    (helementary : e.network.Elementary) {rechecks last : Nat} (h : Runs rechecks e last e') :
    Ran P e last e' := by
  obtain ⟨e₁, e₂, hsteady₁, ⟨hdiligent₁, hsetup₁⟩, hstepped, rfl⟩ :=
    h.keeps (fun _ e₁ => e₁.Diligent P ∧ e₁.SetUpLike e) hsteady
      (fun r more e₁ e₂ hsteady₁ hkept hstepped => by
        obtain ⟨hdiligent₁, hsetup₁⟩ := hkept
        rw [← hsetup₁.network_eq] at hP helementary
        exact ⟨hdiligent₁.stepped hsteady₁ hP helementary hstepped,
          (hdiligent₁.stepped_setUpLike hsteady₁ hP helementary hstepped).trans hsetup₁⟩)
      ⟨he, rfl, rfl, rfl⟩
  have hP₁ := hP
  have helementary₁ := helementary
  rw [← hsetup₁.network_eq] at hP₁ helementary₁
  have hdiligent₂ := hdiligent₁.stepped hsteady₁ hP₁ helementary₁ hstepped
  have hsetup₂ := (hdiligent₁.stepped_setUpLike hsteady₁ hP₁ helementary₁ hstepped).trans hsetup₁
  have hquiet₂ := hstepped.quiet
  have hsteady₂ := hstepped.steady hsteady₁
  refine ⟨hdiligent₂.requeue (fun _ ht _ => ht) (fun _ ha _ => ha) fun a t hastray =>
      absurd hastray (hdiligent₂.prudent.not_astray hsteady₂ hquiet₂ a t),
    ⟨hsetup₂.network_eq, hsetup₂.base_eq, hsetup₂.maxRechecks_eq⟩, fun hbound => ?_⟩
  cases hstepped with
  | settled _ hstop =>
      rcases hstop with hmonotonic | hmax
      · exact Or.inl hmonotonic
      · left
        rw [hsetup₁.maxRechecks_eq] at hmax
        have hmonotonic := hbound.resolve_right (Nat.not_lt.2 hmax)
        change e₁.network.isMonotonic = true
        rw [hsetup₁.network_eq]
        exact hmonotonic
  | upheld _ hupheld => exact Or.inr hupheld

/-! ## Requests -/

/-- An engine that starts over has everything still to do, and all of it waits. -/
theorem Diligent.restarted (h : e.Restarts e')
    (hbase : ∀ t, e.base.contains t = true → t.MadeOf P) : e'.Diligent P := by
  have hsees : ∀ u, e'.view.sees u = true → e.base.contains u = true := by
    intro u hu
    have hview : e'.view.sees u = (e'.base.contains u || e'.deductions.contains u) := rfl
    rw [hview, h.base_eq, h.deductions_eq, MemoryGraph.contains_empty, Bool.or_false] at hu
    exact hu
  have hprudent := Prudent.restarted h
  have huncommitted : ∀ t, e'.committed.contains t = false := by
    intro t
    have hcommitted : e'.committed = .empty := by
      rw [h.frame]
      rfl
    rw [hcommitted, OrderedSet.contains_empty]
  constructor
  case toThorough => exact h.thorough
  case waiting => exact fun a ha => (h.waiting a _ ha).2
  case proper =>
    intro a c firing _ ha
    rw [(h.waiting a firing ha).1]
    exact trivial
  case held => exact fun t ht => hprudent.held_of_uncommitted huncommitted ht
  case uncommitted => exact huncommitted
  case madeOf => exact fun t ht => hbase t (hsees t ht)
  case astray => exact hprudent.astray

section Changes

variable {t : Triple}

/-- While nothing waits, base and deductions may change where what comes into view is
news, what is deduced has been before, and nothing is astray. -/
theorem Diligent.shift (he : e.Diligent P) {base : MemoryGraph} {events : List Event}
    {suspects : OrderedSet Triple} {deductions : MemoryGraph} (hevents : e.events = [])
    (hnews : ∀ u, View.sees ⟨base, deductions⟩ u = true →
      e.view.sees u = true ∨ ∃ w, Event.added w ∈ events ∧ (w == u) = true)
    (hmadeOf : ∀ u, View.sees ⟨base, deductions⟩ u = true → u.MadeOf P)
    (hdeductions : ∀ u, deductions.contains u = e.deductions.contains u)
    (hnone : ∀ a u, ¬ e.Astray a u) :
    Diligent P { e with
      base, events, suspects, deductions } where
  toThorough := by
    refine he.recast (sameMatches_of_memories_eq rfl rfl) hnews fun u hu _ => ?_
    rw [hevents] at hu
    cases hu
  waiting := he.waiting
  proper := he.proper
  held u hu := he.held u (by rw [← hdeductions]; exact hu)
  uncommitted := he.uncommitted
  madeOf := hmadeOf
  astray a u hastray :=
    absurd ⟨hastray.1, by rw [← hdeductions]; exact hastray.2⟩ (hnone a u)

theorem Diligent.expanded (he : e.Diligent P) (hsteady : e.Steady) (hquiet : e.Quiet)
    (hP : Vocabulary P) (ht : t.isGround = true) (hmade : t.MadeOf P) :
    (e.expanded t).Diligent P := by
  have hsees : ∀ u, View.sees ⟨e.base.plus t, e.deductions⟩ u = (e.view.sees u || t == u) :=
    sees_expanded hsteady.consistent.base ht
  refine he.shift hquiet.events (fun u hu => ?_) (fun u hu => ?_)
    (fun u => rfl) (he.prudent.not_astray hsteady hquiet)
  · rw [hsees, Bool.or_eq_true] at hu
    rcases hu with hu | hu
    · exact Or.inl hu
    · by_cases hseen : e.view.sees t = true
      · left
        rw [← e.view.sees_congr hu]
        exact hseen
      · right
        rw [if_neg hseen]
        exact ⟨t, List.mem_append_right _ (List.mem_singleton.2 rfl), hu⟩
  · rw [hsees, Bool.or_eq_true] at hu
    rcases hu with hu | hu
    · exact he.madeOf u hu
    · exact hP.madeOf_congr hu hmade

theorem Diligent.reduced (he : e.Diligent P) (hsteady : e.Steady) (hquiet : e.Quiet)
    (ht : e.base.contains t = true ∨ e.view.sees t = false) : (e.reduced t).Diligent P := by
  have hnone := he.prudent.not_astray hsteady hquiet
  have hsees : ∀ (deductions : MemoryGraph) u,
      (∀ u, deductions.contains u = e.deductions.contains u) →
      View.sees ⟨e.base.minus t, deductions⟩ u = true → e.view.sees u = true := by
    intro deductions u hdeductions hu
    unfold View.sees at hu
    rw [hsteady.consistent.base.contains_minus, hdeductions, Bool.or_eq_true,
      Bool.and_eq_true] at hu
    change (e.base.contains u || e.deductions.contains u) = true
    rw [Bool.or_eq_true]
    exact hu.imp And.left id
  have hkept : ∀ (deductions : MemoryGraph) (events : List Event) (suspects : OrderedSet Triple),
      (∀ u, deductions.contains u = e.deductions.contains u) →
      Diligent P { e with base := e.base.minus t, events, suspects, deductions } :=
    fun deductions events suspects hdeductions =>
      he.shift hquiet.events (fun u hu => Or.inl (hsees deductions u hdeductions hu))
        (fun u hu => he.madeOf u (hsees deductions u hdeductions hu)) hdeductions hnone
  unfold Engine.reduced
  split
  · split
    · exact hkept e.deductions e.events _ fun _ => rfl
    · exact hkept e.deductions _ e.suspects fun _ => rfl
  · rename_i hbase
    have hunseen : e.view.sees t = false := ht.resolve_left hbase
    have hdeduced : e.deductions.contains t = false :=
      (Bool.or_eq_false_iff.1 (show (e.base.contains t || e.deductions.contains t) = false from
        hunseen)).2
    rw [if_neg (by rw [hdeduced]; exact Bool.false_ne_true)]
    refine hkept (e.deductions.minus t) e.events e.suspects fun u => ?_
    rw [hsteady.consistent.deductions.contains_minus]
    cases hsame : t == u with
    | false => rw [Bool.not_false, Bool.and_true]
    | true =>
        rw [e.deductions.contains_congr (BEq.symm hsame), hdeduced]
        rfl

end Changes

end Engine

end Entailment
