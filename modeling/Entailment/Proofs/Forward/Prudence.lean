import Entailment.Proofs.Forward.Thoroughness

/-!
# Prudent engines

Where no rule has anything removed, the deductions of an engine are what its firings have
drawn.  No deduction is without a firing that holds it up, unless it is committed.  The
converse is the delicate part.  A conclusion may be missing although a firing has drawn
it, but only while it is being withdrawn: then no more is going to be drawn, and the
firing has matched something that is not grounded.
-/

namespace Entailment

/-- When a rule of the network fires, it has nothing removed or dropped. -/
def Network.Mild (n : Network) : Prop :=
  ∀ r c, n.rule? r = some c → ∀ (ctx : CallContext) (st st' : CallState) conclusions,
    st.effects = {} → c.evaluate n.registry ctx st = (some conclusions, st') →
    st'.effects.removed = [] ∧ st'.effects.dropped = []

namespace Engine

variable {e e' : Engine MemoryGraph}

/-- The firing has drawn a conclusion that is no deduction any more. -/
def Astray (e : Engine MemoryGraph) (a : Activation) (t : Triple) : Prop :=
  e.Fires a t ∧ e.deductions.contains t = false

/-- What is deduced is held up or committed, what is committed is deduced, and what is held
up is deduced, unless it is being withdrawn. -/
structure Prudent (e : Engine MemoryGraph) : Prop where
  held : ∀ t, e.deductions.contains t = true →
    e.supporters t ≠ [] ∨ e.committed.contains t = true
  lasting : ∀ t, e.committed.contains t = true → e.deductions.contains t = true
  astray : ∀ a t, e.Astray a t → e.agenda = [] ∧ (∀ u, Event.added u ∉ e.events) ∧
    ∃ m ∈ e.matchedBy a, ¬ e.Grounded m

/-! ## What rests on less -/

theorem Grounded.of_less (hgiven : ∀ t, e'.Given t → e.Given t)
    (hdraws : ∀ ts t, e'.Draws ts t → e.Draws ts t) {t : Triple} (h : e'.Grounded t) :
    e.Grounded t :=
  Rests.transfer (fun t ht => .given (hgiven t ht))
    (fun ts t ht => Or.inr ⟨ts, hdraws ts t ht, fun _ hm => hm⟩) h

namespace Prudent

/-- At rest nothing is astray. -/
theorem not_astray (he : e.Prudent) (hsteady : e.Steady) (hquiet : e.Quiet)
    (a : Activation) (t : Triple) : ¬ e.Astray a t := by
  intro hastray
  obtain ⟨_, _, m, hm, hnot⟩ := he.astray a t hastray
  have hseen := hsteady.consistent.sees_of_mem_matchedBy (not_announced_of_events hquiet.events) hm
  exact hnot (hsteady.grounded hquiet hseen)

theorem not_astray_of_agenda (he : e.Prudent) {a b : Activation} {agenda : List Activation}
    (hagenda : e.agenda = a :: agenda) {t : Triple} : ¬ e.Astray b t := by
  intro hastray
  have hempty := (he.astray b t hastray).1
  rw [hagenda] at hempty
  cases hempty

/-- What waits, and what is kept for reports, may change where nothing astray is joined by
more work. -/
theorem requeue (he : e.Prudent) {events : List Event} {agenda : List Activation}
    {suspects : OrderedSet Triple} {derivations : DerivationLog} {hidden : OrderedMap Node Nat}
    {logging traceFirings : Bool} {maxRechecks : Nat} {state : EngineState} {stats : EngineStats}
    {world : World}
    (hastray : ∀ a t, e.Astray a t → agenda = [] ∧ ∀ u, Event.added u ∉ events) :
    Prudent { e with
      events, agenda, suspects, derivations, hidden, logging, traceFirings, maxRechecks, state,
      stats, world } where
  held := he.held
  lasting := he.lasting
  astray a t hat := by
    obtain ⟨_, _, hm⟩ := he.astray a t hat
    exact ⟨(hastray a t hat).1, (hastray a t hat).2, hm⟩

/-! ## Entering -/

theorem enters (he : e.Prudent) {t : Triple} {events : List Event}
    (hevents : e.events = .added t :: events) {stats : EngineStats}
    (henters : Enters t { e with events, state := .propagating, stats } e') : e'.Prudent := by
  have hgrown := henters.grown
  -- Nothing is astray while there are news.
  have hnone : ∀ a u, ¬ e.Astray a u := by
    intro a u hastray
    refine (he.astray a u hastray).2.1 t ?_
    rw [hevents]
    exact List.mem_cons_self
  have hdeductions : e'.deductions = e.deductions := by rw [hgrown.frame]
  have hcommitted : e'.committed = e.committed := by rw [hgrown.frame]
  constructor
  case held =>
    intro u hu
    rw [hgrown.supporters_eq, hcommitted]
    exact he.held u (hdeductions ▸ hu)
  case lasting =>
    intro u hu
    rw [hdeductions]
    exact he.lasting u (hcommitted ▸ hu)
  case astray =>
    intro a u ⟨hfires, hu⟩
    exact absurd ⟨(hgrown.fires_iff a u).1 hfires, hdeductions ▸ hu⟩ (hnone a u)

end Prudent

/-! ## Losing tokens -/

section Losing

variable {e₁ : Engine MemoryGraph}

/-- What is astray when conclusions have been taken back was so before. -/
theorem astray_of_recedes (hbacked : e.Backed) (hrecedes : e₁.Recedes e')
    (habandons : e₁.Abandons e') (hbacked' : e'.Backed)
    (hdeductions : e₁.deductions = e.deductions) (hsupport : e₁.support = e.support)
    {a : Activation} {t : Triple} (hastray : e'.Astray a t) : e.Astray a t := by
  obtain ⟨hfires, ht⟩ := hastray
  have hmem := (hbacked' t a).2 hfires
  have hbefore : a ∈ e.supporters t := by
    have hmem₁ := hrecedes.supporters t a hmem
    unfold supporters at hmem₁ ⊢
    rwa [hsupport] at hmem₁
  refine ⟨(hbacked t a).1 hbefore, ?_⟩
  cases hdeduced : e.deductions.contains t with
  | false => rfl
  | true =>
      have hempty := habandons.empty t (hdeductions ▸ hdeduced) ht
      rw [hempty] at hmem
      cases hmem

/-- An engine stays prudent when conclusions are taken back, if what is astray afterwards is
allowed to be. -/
theorem Prudent.recedes (he : e.Prudent) (hrecedes : e₁.Recedes e') (habandons : e₁.Abandons e')
    (hdeductions : e₁.deductions = e.deductions) (hsupport : e₁.support = e.support)
    (hcommitted : e₁.committed = e.committed)
    (hastray : ∀ a t, e'.Astray a t → e'.agenda = [] ∧ (∀ u, Event.added u ∉ e'.events) ∧
      ∃ m ∈ e'.matchedBy a, ¬ e'.Grounded m) : e'.Prudent where
  held t ht := by
    by_cases hnone : e'.supporters t = []
    · right
      rw [hrecedes.committed_eq, hcommitted]
      have hsupporters : e₁.supporters t = e.supporters t := by
        unfold supporters
        rw [hsupport]
      rcases habandons.held t ht hnone with hempty | hmem
      · have hbefore := hrecedes.shrinks t ht
        rw [hdeductions] at hbefore
        exact (he.held t hbefore).resolve_left fun hne => hne (hsupporters ▸ hempty)
      · rwa [hcommitted] at hmem
    · exact Or.inl hnone
  lasting t ht := by
    rw [hrecedes.committed_eq] at ht
    refine habandons.spared t ht ?_
    rw [hdeductions]
    exact he.lasting t (hcommitted ▸ ht)
  astray := hastray

end Losing

/-- An engine stays prudent when it loses the tokens that hold a triple out of view. -/
theorem Prudent.survives (t : Triple) : Work.SurvivesLoss Prudent t := by
  intro e e' gone rule c hconsistent hbacked hc hunseen hrecedes habandons hbacked' he
  have hstocked := hconsistent.stocked
  have hfiring : ∀ a, e'.firing? a = (e.cleared rule t).firing? a := by
    intro a
    unfold firing?
    rw [hrecedes.memory_eq]
  have hmatched : ∀ a, e'.matchedBy a = (e.cleared rule t).matchedBy a := by
    intro a
    unfold matchedBy
    rw [hrecedes.memory_eq]
  refine he.recedes hrecedes habandons rfl rfl rfl fun a u hat => ?_
  obtain ⟨hagenda, hnews, m, hm, hnot⟩ := he.astray a u
    (astray_of_recedes hbacked hrecedes habandons hbacked' rfl rfl hat)
  obtain ⟨firing, hfires, _⟩ := hat.1
  rw [hfiring] at hfires
  refine ⟨by rw [hrecedes.frame]; exact hagenda,
    fun w hw => hnews w ((hrecedes.added_mem_iff w).1 hw), m, ?_, fun hgrounded => hnot ?_⟩
  · rw [hmatched, (firing?_cleared hstocked hc hfires).2]
    exact hm
  · refine hgrounded.of_less (fun w hw => ?_) fun ts w ⟨hw, b, hb, hts⟩ => ?_
    · rw [Given, hrecedes.committed_eq, hrecedes.base_eq] at hw
      exact hw
    · obtain ⟨firing, hb', _⟩ := (hbacked' w b).1 hb
      rw [hfiring] at hb'
      refine ⟨hrecedes.shrinks w hw, b, hrecedes.supporters w b hb, ?_⟩
      rw [← hts, hmatched, (firing?_cleared hstocked hc hb').2]

namespace Prudent

/-! ## Firing -/

/-- An activation that fires adds to the deductions what it draws. -/
theorem drawn (he : e.Prudent) (hnone : ∀ b t, ¬ e.Astray b t) (hbacked : e.Backed)
    {a : Activation} {destructive : Bool} {conclusions : List Triple} {e₀ : Engine MemoryGraph}
    (hdeductions : e₀.deductions = e.deductions) (hcommitted : e₀.committed = e.committed)
    (hsupport : e₀.support = e.support) (hadopts : e₀.Adopts e' a destructive conclusions)
    (hbacked' : e'.Backed) : e'.Prudent := by
  have hcontains : ∀ u, e'.deductions.contains u =
      (e.deductions.contains u || conclusions.any (· == u)) := fun u => by
    rw [hadopts.deductions_eq, hdeductions]
  have hstays : ∀ u, e'.committed.contains u =
      (e.committed.contains u || destructive && conclusions.any (· == u)) := fun u => by
    rw [hadopts.committed_eq, hcommitted]
  have hsupporters : ∀ u b, b ∈ e'.supporters u ↔ b ∈ e.supporters u ∨
      destructive = false ∧ b = a ∧ conclusions.any (· == u) = true := by
    intro u b
    rw [hadopts.supporters_iff, show e₀.supporters u = e.supporters u by
      unfold supporters
      rw [hsupport]]
  constructor
  case held =>
    intro u hu
    rw [hcontains, Bool.or_eq_true] at hu
    rcases hu with hu | hu
    · rcases he.held u hu with hheld | hmem
      · obtain ⟨b, hb⟩ := List.exists_mem_of_ne_nil _ hheld
        exact Or.inl (List.ne_nil_of_mem ((hsupporters u b).2 (Or.inl hb)))
      · right
        rw [hstays, hmem, Bool.true_or]
    · cases destructive with
      | false => exact Or.inl (List.ne_nil_of_mem ((hsupporters u a).2 (Or.inr ⟨rfl, rfl, hu⟩)))
      | true =>
          right
          rw [hstays, hu, Bool.true_and, Bool.or_true]
  case lasting =>
    intro u hu
    rw [hstays, Bool.or_eq_true, Bool.and_eq_true] at hu
    rw [hcontains, Bool.or_eq_true]
    exact hu.imp (he.lasting u) And.right
  case astray =>
    intro b u ⟨hfires, hu⟩
    rw [hcontains, Bool.or_eq_false_iff] at hu
    rcases (hsupporters u b).1 ((hbacked' u b).2 hfires) with hold | ⟨_, _, hdrawn⟩
    · exact absurd ⟨(hbacked u b).1 hold, hu.1⟩ (hnone b u)
    · rw [hu.2] at hdrawn
      cases hdrawn

/-- Where a firing is not one that has drawn anything, nothing new is astray. -/
theorem not_astray_setFiring (hnone : ∀ b t, ¬ e.Astray b t) {a : Activation}
    (ha : a.rule < e.memories.length) {new : Firing} (hnew : ∀ t, ¬ new.Concludes t)
    (b : Activation) (t : Triple) : ¬ (e.setFiring a new).Astray b t := by
  rintro ⟨hfires, ht⟩
  rw [fires_setFiring_iff ha] at hfires
  split at hfires
  · exact hnew t hfires
  · exact hnone b t ⟨hfires, ht⟩

theorem fired (he : e.Prudent) (hstocked : e.Stocked) (hbacked : e.Backed)
    (hmild : e.network.Mild) {a : Activation} {agenda : List Activation}
    (hagenda : e.agenda = a :: agenda)
    (hfired : Fired { e with agenda, state := .firing } a e') (hbacked' : e'.Backed) :
    e'.Prudent := by
  have hnone : ∀ b t, ¬ e.Astray b t := fun _ _ => he.not_astray_of_agenda hagenda
  cases hfired with
  | stale => exact he.requeue fun b t hastray => absurd hastray (hnone b t)
  | blocked _ hc _ _ hframe =>
      rw [hframe]
      refine ⟨he.held, he.lasting, fun b t hastray => absurd ?_
        (not_astray_setFiring hnone (hstocked.lt_length hc) not_concludes_blocked b t)⟩
      exact hastray
  | drawn _ hc _ hevaluate hframe hadopts hpurges =>
      obtain rfl := hpurges.nothing (hmild _ _ hc _ _ _ _ rfl hevaluate).1
      exact he.drawn hnone hbacked (by rw [hframe]; rfl) (by rw [hframe]; rfl)
        (by rw [hframe]; rfl) hadopts hbacked'

/-! ## Checking suspects -/

theorem reviewed (he : e.Prudent) (hsound : e.deductions.Sound) (hbacked : e.Backed)
    (hevents : e.events = []) (hagenda : e.agenda = []) {t : Triple}
    {suspects : OrderedSet Triple} (hreviewed : Reviewed { e with suspects } e' t) :
    e'.Prudent := by
  rcases hreviewed with ⟨heq, _⟩ | ⟨heq, hdeduced, hbase, hnot⟩
  · rw [heq]
    refine he.requeue fun _ _ _ => ⟨hagenda, fun u hu => ?_⟩
    rw [show ({ e with suspects } : Engine MemoryGraph).events = [] from hevents] at hu
    cases hu
  · have hcontains : ∀ u, e'.deductions.contains u = (e.deductions.contains u && !(t == u)) := by
      intro u
      rw [heq]
      exact hsound.contains_minus t u
    have hfields : e' = { e with
        suspects := e'.suspects
        stats := e'.stats
        events := [.deleted t]
        deductions := e'.deductions } := by
      rw [heq]
      unfold withdrawn
      rw [hdeduced, hbase, show ({ e with suspects } : Engine MemoryGraph).events = [] from hevents]
      rfl
    have hgrounded : ∀ {u}, e'.Grounded u → e.Grounded u := by
      intro u hu
      refine hu.of_less (fun w hw => ?_) fun ts w ⟨hw, hprops⟩ => ⟨?_, ?_⟩
      · rw [heq] at hw
        exact hw
      · rw [hcontains] at hw
        exact (Bool.and_eq_true_iff.1 hw).1
      · rw [heq] at hprops
        exact hprops
    constructor
    case held =>
      intro u hu
      rw [hcontains, Bool.and_eq_true] at hu
      rw [hfields]
      exact he.held u hu.1
    case lasting =>
      intro u hu
      rw [hfields] at hu
      have hu' : e.committed.contains u = true := hu
      rw [hcontains, he.lasting u hu', Bool.true_and, Bool.not_eq_true']
      cases hsame : t == u with
      | false => rfl
      | true =>
          -- What is committed is grounded.
          rw [← e.committed.contains_congr hsame] at hu'
          exact absurd (Rests.given (Or.inr hu')) hnot
    case astray =>
      intro a u ⟨hfires, hu⟩
      have hfires' : e.Fires a u := by
        rw [hfields] at hfires
        exact hfires
      refine ⟨by rw [hfields]; exact hagenda, ?_, ?_⟩
      · intro w hw
        rw [hfields] at hw
        cases List.mem_singleton.1 hw
      · have hmatched : e'.matchedBy a = e.matchedBy a := by rw [hfields]; rfl
        rw [hmatched]
        cases hold : e.deductions.contains u with
        | false =>
            obtain ⟨_, _, m, hm, hungrounded⟩ := he.astray a u ⟨hfires', hold⟩
            exact ⟨m, hm, fun h => hungrounded (hgrounded h)⟩
        | true =>
            -- The firing has drawn what is withdrawn, so not all that it has matched is
            -- grounded.
            rw [hcontains, hold, Bool.true_and, Bool.not_eq_false'] at hu
            by_contra hall
            push Not at hall
            refine hnot (Rests.step ⟨hdeduced, a, ?_, rfl⟩ fun m hm =>
              hgrounded (hall m hm))
            rw [show supporters { e with suspects } t = e.supporters t from rfl,
              supporters_congr e hu]
            exact (hbacked u a).2 hfires'

/-! ## Asking again -/

theorem reconsidered (he : e.Prudent) (hnone : ∀ b t, ¬ e.Astray b t) (hstocked : e.Stocked)
    (hbacked : e.Backed) {a : Activation} {c : CompiledRule} {fired answer : Bool}
    (hc : e.network.rule? a.rule = some c) (h : e.Reconsidered c a fired answer e') :
    e'.Prudent ∧ ∀ b t, ¬ e'.Astray b t := by
  have hlt := hstocked.lt_length hc
  cases h with
  | same _ _ heq =>
      rw [heq]
      exact ⟨he.requeue fun b t h => absurd h (hnone b t), hnone⟩
  | @taken e₁ _ _ hblocked hrecedes habandons hbacked' =>
      have hdeductions : e₁.deductions = e.deductions := by rw [hblocked]; rfl
      have hsupport : e₁.support = e.support := by rw [hblocked]; rfl
      have hcommitted : e₁.committed = e.committed := by rw [hblocked]; rfl
      have hastray : ∀ b t, ¬ e'.Astray b t := fun b t h =>
        hnone b t (astray_of_recedes hbacked hrecedes habandons hbacked' hdeductions hsupport h)
      exact ⟨he.recedes hrecedes habandons hdeductions hsupport hcommitted
        fun b t h => absurd h (hastray b t), hastray⟩
  | again _ heq =>
      rw [heq]
      have hastray : ∀ b t, ¬ Astray { e.schedule a with world := e'.world } b t := fun b t h =>
        not_astray_setFiring hnone hlt not_concludes_pending b t h
      exact ⟨⟨he.held, he.lasting, fun b t h => absurd h (hastray b t)⟩, hastray⟩

theorem reasked (he : e.Prudent) (hnone : ∀ b t, ¬ e.Astray b t)
    (hconsistent : e.Consistent nothingGone) (hbacked : e.Backed) {asked : List Activation}
    {changed : Bool} (h : e.Reasked asked changed e') :
    e'.Prudent ∧ ∀ b t, ¬ e'.Astray b t := by
  induction h with
  | none => exact ⟨he, hnone⟩
  | next hreasked hc _ _ _ hreconsidered ih =>
      obtain ⟨hconsistent₁, hbacked₁⟩ := hreasked.sound hconsistent hbacked
      exact ih.1.reconsidered ih.2 hconsistent₁.stocked hbacked₁ hc hreconsidered

/-! ## Steps and runs -/

/-- An event may be forgotten. -/
theorem next_event (he : e.Prudent) {event : Event} {events : List Event}
    (hevents : e.events = event :: events) {state : EngineState} {stats : EngineStats} :
    Prudent { e with events, state, stats } := by
  refine he.requeue fun a t hastray => ?_
  obtain ⟨hagenda, hnews, _⟩ := he.astray a t hastray
  refine ⟨hagenda, fun u hu => hnews u ?_⟩
  rw [hevents]
  exact List.mem_cons_of_mem _ hu

/-- A piece of work leaves a prudent engine prudent. -/
theorem stepped (he : e.Prudent) (hsteady : e.Steady) (hmild : e.network.Mild) {rechecks : Nat}
    {answer : Option Nat} (h : e.Stepped rechecks answer e') : e'.Prudent := by
  have hconsistent := hsteady.consistent
  have hsteady' := h.steady hsteady
  cases h with
  | late hevents _ => exact he.next_event hevents
  | entered hevents henters => exact he.enters hevents henters
  | back hevents _ => exact he.next_event hevents
  | left hevents _ hforgets _ _ => exact hforgets.survives (survives _) (he.next_event hevents)
  | fired _ hagenda hfired =>
      exact he.fired hconsistent.stocked hsteady.backed hmild hagenda hfired hsteady'.backed
  | reviewed hevents hagenda _ hreviewed =>
      exact he.reviewed hconsistent.deductions hsteady.backed hevents hagenda hreviewed
  | settled => exact he
  | @changed stats asked e' hquiet _ hreasked =>
      have hnone := he.not_astray hsteady hquiet
      have hstats : Prudent { e with stats } := he.requeue fun a t h => absurd h (hnone a t)
      have hsteady₀ : Steady { e with stats } := hsteady.of_agree rfl
      exact (hstats.reasked hnone hsteady₀.consistent hsteady₀.backed hreasked).1
  | upheld hquiet _ =>
      exact he.requeue fun a t h => absurd h (he.not_astray hsteady hquiet a t)

/-! ## Requests -/

theorem restarted (h : e.Restarts e') : e'.Prudent where
  held t ht := by
    rw [h.deductions_eq, MemoryGraph.contains_empty] at ht
    cases ht
  lasting t ht := by
    have hcommitted : e'.committed = .empty := by
      rw [h.frame]
      rfl
    rw [hcommitted, OrderedSet.contains_empty] at ht
    cases ht
  astray a t := by
    rintro ⟨⟨firing, ha, hconcludes⟩, _⟩
    rw [(h.waiting a firing ha).1] at hconcludes
    exact absurd hconcludes (not_concludes_pending t)

/-- While nothing is astray, base and events may change, and so may the deductions as long
as they have the same members. -/
theorem shift (he : e.Prudent) (hnone : ∀ a u, ¬ e.Astray a u) {base : MemoryGraph}
    {events : List Event} {suspects : OrderedSet Triple} {deductions : MemoryGraph}
    (hdeductions : ∀ u, deductions.contains u = e.deductions.contains u) :
    Prudent { e with base, events, suspects, deductions } where
  held u hu := he.held u (by rw [← hdeductions]; exact hu)
  lasting u hu := (hdeductions u).trans (he.lasting u hu)
  astray a u hastray :=
    absurd ⟨hastray.1, by rw [← hdeductions]; exact hastray.2⟩ (hnone a u)

theorem expanded (he : e.Prudent) (hnone : ∀ a u, ¬ e.Astray a u) (t : Triple) :
    (e.expanded t).Prudent := he.shift hnone fun _ => rfl

theorem reduced (he : e.Prudent) (hsound : e.deductions.Sound) (hnone : ∀ a u, ¬ e.Astray a u)
    {t : Triple} (ht : e.base.contains t = true ∨ e.view.sees t = false) :
    (e.reduced t).Prudent := by
  unfold Engine.reduced
  split
  · split
    · exact he.shift hnone fun _ => rfl
    · exact he.shift hnone fun _ => rfl
  · rename_i hbase
    have hunseen : (e.base.contains t || e.deductions.contains t) = false := ht.resolve_left hbase
    have hdeduced := (Bool.or_eq_false_iff.1 hunseen).2
    rw [if_neg (by rw [hdeduced]; exact Bool.false_ne_true)]
    refine he.shift hnone fun u => ?_
    rw [hsound.contains_minus]
    cases hsame : t == u with
    | false => rw [Bool.not_false, Bool.and_true]
    | true =>
        rw [← e.deductions.contains_congr hsame, hdeduced]
        rfl

theorem held_of_uncommitted (he : e.Prudent) (huncommitted : ∀ t, e.committed.contains t = false)
    {t : Triple} (ht : e.deductions.contains t = true) : e.supporters t ≠ [] :=
  (he.held t ht).resolve_right (by rw [huncommitted]; exact Bool.false_ne_true)

/-- At rest a triple is deduced just when a firing holds it up or it is committed. -/
theorem deduced_iff (he : e.Prudent) (hsteady : e.Steady) (hquiet : e.Quiet) (t : Triple) :
    e.deductions.contains t = true ↔ e.supporters t ≠ [] ∨ e.committed.contains t = true := by
  refine ⟨he.held t, fun h => ?_⟩
  rcases h with hheld | hcommitted
  · obtain ⟨a, ha⟩ := List.exists_mem_of_ne_nil _ hheld
    cases ht : e.deductions.contains t with
    | true => rfl
    | false =>
        exact absurd ⟨(hsteady.backed t a).1 ha, ht⟩ (he.not_astray hsteady hquiet a t)
  · exact he.lasting t hcommitted

end Prudent

end Engine

end Entailment
