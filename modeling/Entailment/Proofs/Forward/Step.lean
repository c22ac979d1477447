import Entailment.Proofs.Forward.Activation
import Entailment.Proofs.Forward.Firing

/-!
# One piece of work

A step takes up an event, an activation or a suspect, or it asks activations again
when nothing else is left.  What it does to the engine is one of a few things, and it
never fails as long as the engine is consistent and its conclusions are backed.
-/

namespace Entailment

namespace Engine

/-- A triple in view has been joined at every level that it activates. -/
structure Enters (t : Triple) (e e' : Engine MemoryGraph) : Prop where
  seen : e.view.sees t = true
  grown : e.Extends e'
  joins : ∀ expected : Nat → Option TokenId → Triple → Prop,
    (e.Joined fun j place u => expected j place u ∨ e.Due t (e.network.activations t) j place u) →
    e'.Joined expected

/-- The rules have lost, one after another, the tokens that hold a triple out of view. -/
inductive Forgets (t : Triple) (e : Engine MemoryGraph) : Engine MemoryGraph → Prop where
  | refl : Forgets t e e
  | next {e₁ e' : Engine MemoryGraph} {gone : Nat → Triple → Prop} {rule : Nat}
      {c : CompiledRule} :
      Forgets t e e₁ → e₁.Consistent gone → e₁.Backed → e₁.network.rule? rule = some c →
      e₁.view.sees t = false → (e₁.cleared rule t).Recedes e' →
      (e₁.cleared rule t).Abandons e' → e'.Backed → Forgets t e e'

theorem Forgets.survives {t : Triple} {e e' : Engine MemoryGraph}
    {kept : Engine MemoryGraph → Prop} (h : e.Forgets t e')
    (hsurvives : Work.SurvivesLoss kept t) (hkept : kept e) : kept e' := by
  induction h with
  | refl => exact hkept
  | next _ hconsistent hbacked hc hseen hrecedes habandons hbacked' ih =>
      exact hsurvives _ _ _ _ _ hconsistent hbacked hc hseen hrecedes habandons hbacked' ih

/-- Activations have been asked again one after another; it is told whether an answer
has changed. -/
inductive Reasked (e : Engine MemoryGraph) :
    List Activation → Bool → Engine MemoryGraph → Prop where
  | none : Reasked e [] false e
  | next {asked : List Activation} {changed answer fired : Bool} {e₁ e' : Engine MemoryGraph}
      {a : Activation} {c : CompiledRule} {firing : Firing} :
      Reasked e asked changed e₁ → e₁.network.rule? a.rule = some c → c.nonMonotonic = true →
      e₁.firing? a = some firing → firing.revisable? = some fired →
      e₁.Reconsidered c a fired answer e' → Reasked e (asked ++ [a]) (changed || answer) e'

/-- Asked in the engine as it is, the calls of the activation answer as they did last. -/
def Upheld (e : Engine MemoryGraph) (a : Activation) : Prop :=
  ∀ c firing fired, e.network.rule? a.rule = some c → c.nonMonotonic = true →
    e.firing? a = some firing → firing.revisable? = some fired →
    ∃ b w st, c.bindings (e.matchedBy a) = .ok b ∧
      allHold (fun call st =>
        call.holdsSpeculatively e.network.registry (e.callContext c a true) st)
        c.calls { bindings := b, world := w } = (fired, st)

/-- Nothing waits. -/
structure Quiet {γ : Type} (e : Engine γ) : Prop where
  events : e.events = []
  agenda : e.agenda = []
  suspects : e.suspects.members = []

/-- What a piece of work comes to. -/
inductive Stepped (rechecks : Nat) (e : Engine MemoryGraph) :
    Option Nat → Engine MemoryGraph → Prop where
  | late {t : Triple} {events : List Event} :
      e.events = .added t :: events → e.view.sees t = false →
      Stepped rechecks e (some rechecks) { e with events, state := .propagating }
  | entered {t : Triple} {events : List Event} {stats : EngineStats} {e' : Engine MemoryGraph} :
      e.events = .added t :: events →
      Enters t { e with events, state := .propagating, stats } e' →
      Stepped rechecks e (some rechecks) e'
  | back {t : Triple} {events : List Event} :
      e.events = .deleted t :: events → e.view.sees t = true →
      Stepped rechecks e (some rechecks) { e with events, state := .propagating }
  | left {t : Triple} {events : List Event} {stats : EngineStats} {e' : Engine MemoryGraph} :
      e.events = .deleted t :: events → e.view.sees t = false →
      Forgets t { e with events, state := .propagating, stats } e' →
      e'.Consistent nothingGone → e'.Backed → Stepped rechecks e (some rechecks) e'
  | fired {a : Activation} {agenda : List Activation} {e' : Engine MemoryGraph} :
      e.events = [] → e.agenda = a :: agenda →
      Fired { e with agenda, state := .firing } a e' → Stepped rechecks e (some rechecks) e'
  | reviewed {t : Triple} {suspects : OrderedSet Triple} {e' : Engine MemoryGraph} :
      e.events = [] → e.agenda = [] → e.suspects.pop? = some (t, suspects) →
      Reviewed { e with suspects } e' t → Stepped rechecks e (some rechecks) e'
  | settled : e.Quiet → e.network.isMonotonic = true ∨ e.maxRechecks ≤ rechecks →
      Stepped rechecks e none e
  | changed {stats : EngineStats} {asked : List Activation} {e' : Engine MemoryGraph} :
      e.Quiet → rechecks < e.maxRechecks → Reasked { e with stats } asked true e' →
      Stepped rechecks e (some (rechecks + 1)) e'
  | upheld {stats : EngineStats} {world : World} :
      e.Quiet → (∀ a, e.Upheld a) → Stepped rechecks e none { e with stats, world }

/-! ## Asking again -/

section Asking

variable {e e' : Engine MemoryGraph} {a b : Activation} {c : CompiledRule} {fired answer : Bool}

theorem firing?_of_memories_eq (h : e'.memories = e.memories) : e'.firing? a = e.firing? a := by
  rw [firing?, firing?, memory, memory, h]

theorem Reconsidered.network_eq (h : e.Reconsidered c a fired answer e') :
    e'.network = e.network := by
  cases h with
  | same _ _ hframe => rw [hframe]
  | taken _ hframe hrecedes _ _ =>
      rw [hrecedes.network_eq, hframe]
      rfl
  | again _ hframe =>
      rw [hframe]
      rfl

theorem Reconsidered.firing?_of_ne (h : e.Reconsidered c a fired answer e')
    (ha : a.rule < e.memories.length) (hne : a ≠ b) : e'.firing? b = e.firing? b := by
  have hset : ∀ new, (e.setFiring a new).firing? b = e.firing? b := by
    intro new
    rw [firing?_setFiring ha, if_neg hne]
  cases h with
  | same _ _ hframe =>
      rw [hframe]
      rfl
  | taken _ hframe hrecedes _ _ =>
      rw [firing?, hrecedes.memory_eq, hframe]
      exact hset .blocked
  | again _ hframe =>
      rw [hframe]
      exact hset .pending

/-- Asking an activation again makes none fire. -/
theorem Reconsidered.firing?_of_fired {conclusions : List Triple} {hidden : List Node} {committed : Bool}
    (h : e.Reconsidered c b fired answer e') (hb : b.rule < e.memories.length)
    (ha : e'.firing? a = some (.fired conclusions hidden committed)) :
    e.firing? a = some (.fired conclusions hidden committed) := by
  by_cases hne : b = a
  · subst hne
    cases h with
    | same _ _ hframe =>
        rw [firing?_of_memories_eq (by rw [hframe])] at ha
        exact ha
    | taken _ hframe hrecedes _ _ =>
        have hset : e'.firing? b = (e.setFiring b .blocked).firing? b := by
          rw [firing?_of_memories_eq (e := e.setFiring b .blocked) (by rw [hrecedes.frame, hframe])]
        rw [hset, firing?_setFiring hb, if_pos rfl] at ha
        cases ha
    | again _ hframe =>
        have hset : e'.firing? b = (e.setFiring b .pending).firing? b := by
          rw [firing?_of_memories_eq (e := e.setFiring b .pending) (by rw [hframe]; rfl)]
        rw [hset, firing?_setFiring hb, if_pos rfl] at ha
        cases ha
  · rwa [h.firing?_of_ne hb hne] at ha

theorem Reconsidered.unchanged (h : e.Reconsidered c a fired false e') :
    e' = { e with world := e'.world } := by
  cases h with
  | same _ _ hframe => exact hframe

theorem Reasked.network_eq {asked : List Activation} {changed : Bool}
    (h : e.Reasked asked changed e') : e'.network = e.network := by
  induction h with
  | none => rfl
  | next _ _ _ _ _ hreconsidered ih => rw [hreconsidered.network_eq, ih]

/-- Where no answer has changed, nothing has, and the answers stand. -/
theorem Reasked.unchanged {asked : List Activation} (h : e.Reasked asked false e') :
    e' = { e with world := e'.world } ∧ ∀ a ∈ asked, e.Upheld a := by
  generalize hchanged : false = changed at h
  induction h with
  | none => exact ⟨rfl, fun a ha => nomatch ha⟩
  | @next asked changed answer fired e₁ e' a c firing _ hc _ hfiring hrevisable hreconsidered ih =>
      obtain ⟨rfl, rfl⟩ := Bool.or_eq_false_iff.1 hchanged.symm
      obtain ⟨hframe, hupheld⟩ := ih rfl
      have hframe' := hreconsidered.unchanged
      refine ⟨by rw [hframe', hframe], fun d hd => ?_⟩
      rcases List.mem_append.1 hd with hd | hd
      · exact hupheld d hd
      · obtain rfl := List.mem_singleton.1 hd
        intro c' firing' fired' hc' _ hfiring' hrevisable'
        rw [hframe] at hc hfiring
        have hsameRule : c = c' := Option.some.inj (hc.symm.trans hc')
        have hsameFiring : firing = firing' := Option.some.inj (hfiring.symm.trans hfiring')
        subst hsameRule hsameFiring
        obtain rfl := Option.some.inj (hrevisable.symm.trans hrevisable')
        cases hreconsidered with
        | @same b st _ hb hasked _ =>
            rw [hframe] at hb hasked
            exact ⟨b, _, st, hb, hasked⟩

end Asking

end Engine

namespace Work

variable {e : Engine MemoryGraph}

/-! ## Events -/

theorem ends_enter (he : e.Stocked) (hview : e.view.Sound) (hwired : e.network.Wired)
    {t : Triple} (hseen : e.view.sees t = true) :
    ((e.network.activations t).forM (activate t)).Ends e fun _ e' => Engine.Enters t e e' := by
  refine (ends_forM (fun rest e' => e.Extends e' ∧
    (∀ s ∈ rest, s ∈ e.network.activations t) ∧
    ∀ expected : Nat → Option TokenId → Triple → Prop,
      (e.Joined fun j place u => expected j place u ∨
        e.Due t (e.network.activations t) j place u) →
      e'.Joined fun j place u => expected j place u ∨ e'.Due t rest j place u) ?_ _
    ⟨.refl he, fun s hs => hs, fun _ h => h⟩).mono ?_
  · rintro s rest e₁ ⟨hextends, hrest, hjoins⟩
    refine (ends_activate hextends.stocked (by rw [hextends.view_eq]; exact hview)
      (by rw [hextends.network_eq]; exact hwired) (by rw [hextends.view_eq]; exact hseen)
      (by rw [hextends.network_eq]; exact hrest s (List.mem_cons_self ..))).mono ?_
    rintro _ e₂ ⟨hextends', hjoins'⟩
    refine ⟨hextends.trans hextends', fun u hu => hrest u (List.mem_cons_of_mem _ hu), ?_⟩
    exact fun expected h => hjoins' expected rest (hjoins expected h)
  · rintro _ e' ⟨hextends, _, hjoins⟩
    refine ⟨hseen, hextends, fun expected h => (hjoins expected h).weaken ?_⟩
    rintro j place u _ (hexpected | ⟨_, _, _, hmem⟩)
    · exact Or.inr hexpected
    · cases hmem

theorem ends_isVisible {t : Triple} {post : Bool → Engine MemoryGraph → Prop} :
    (isVisible t).Ends e post ↔ post (e.view.sees t) e := by
  unfold isVisible
  rw [ends_bind, ends_get, View.contains_eq, ends_access]

theorem ends_propagate_added (he : e.Stocked) (hview : e.view.Sound) (hwired : e.network.Wired)
    (t : Triple) : (propagate (.added t)).Ends e fun _ e' =>
      (e.view.sees t = false ∧ e' = e) ∨
        ∃ stats, Engine.Enters t { e with stats } e' := by
  unfold propagate
  rw [ends_bind, ends_isVisible]
  by_cases hseen : e.view.sees t = true
  · rw [if_pos hseen]
    simp only [ends_bind, ends_count, ends_get]
    refine (ends_enter (e := { e with stats := { e.stats with events := e.stats.events + 1 } })
      he hview hwired hseen).mono ?_
    exact fun _ e' h => Or.inr ⟨_, h⟩
  · rw [if_neg hseen]
    exact Or.inl ⟨Bool.eq_false_iff.2 hseen, rfl⟩

theorem ends_propagate_deleted {gone : Nat → Triple → Prop} (h : e.Consistent gone)
    (hbacked : e.Backed) {t : Triple} (hgone : ∀ r u, gone r u → (t == u) = true) :
    (propagate (.deleted t)).Ends e fun _ e' =>
      (e.view.sees t = true ∧ e' = e) ∨ e.view.sees t = false ∧
        (∃ stats, Engine.Forgets t { e with stats } e') ∧
        e'.Consistent Engine.nothingGone ∧ e'.Backed := by
  unfold propagate
  rw [ends_bind, ends_isVisible]
  by_cases hseen : e.view.sees t = true
  · rw [if_pos hseen]
    exact Or.inl ⟨hseen, rfl⟩
  · rw [if_neg hseen]
    rw [Bool.not_eq_true] at hseen
    simp only [ends_bind, ends_count, ends_get]
    set e₀ : Engine MemoryGraph :=
      { e with stats := { e.stats with events := e.stats.events + 1 } } with he₀
    have hstart : e₀.Consistent gone := h.of_agree (by rw [he₀])
    refine (ends_retractAll hstart hbacked hgone hseen (Engine.Forgets t e₀) ?_
      .refl).mono ?_
    · intro e₁ e₂ gone rule c hconsistent hbacked₁ hc hseen₁ hrecedes habandons hbacked₂ hforgets
      exact .next hforgets hconsistent hbacked₁ hc hseen₁ hrecedes habandons hbacked₂
    · rintro _ e' ⟨hconsistent, hbacked', hforgets⟩
      exact Or.inr ⟨hseen, ⟨_, hforgets⟩, hconsistent, hbacked'⟩

/-! ## Asking again -/

theorem mem_revisable_iff {m : TokenMemory} {id : TokenId} {fired : Bool} :
    (id, fired) ∈ m.revisable ↔
      ∃ firing, m.firings.get? id = some firing ∧ firing.revisable? = some fired := by
  unfold TokenMemory.revisable
  rw [List.mem_filterMap]
  constructor
  · rintro ⟨⟨j, firing⟩, hmem, hrevisable⟩
    obtain ⟨held, hheld, hsame⟩ := Option.map_eq_some_iff.1 hrevisable
    cases hsame
    exact ⟨firing, OrderedMap.mem_entries_iff.1 hmem, hheld⟩
  · rintro ⟨firing, hfiring, hrevisable⟩
    refine ⟨(id, firing), OrderedMap.mem_entries_iff.2 hfiring, ?_⟩
    simp [hrevisable]

theorem pairwise_revisable (m : TokenMemory) :
    m.revisable.Pairwise fun x y => x.1 ≠ y.1 := by
  unfold TokenMemory.revisable
  rw [List.pairwise_filterMap]
  have hdistinct := m.firings.distinct
  rw [Distinct, List.pairwise_map] at hdistinct
  refine hdistinct.imp ?_
  intro x y hne p hp q hq
  obtain ⟨held, _, rfl⟩ := Option.map_eq_some_iff.1 hp
  obtain ⟨held', _, rfl⟩ := Option.map_eq_some_iff.1 hq
  simpa using hne

/-- The state of the engine while activations are asked again. -/
structure Asking (e e' : Engine MemoryGraph) (asked : List Activation) (changed : Bool) :
    Prop where
  reasked : e.Reasked asked changed e'
  orderly : e'.Orderly

theorem ends_recheckRule {e₁ : Engine MemoryGraph} {asked : List Activation} {changed : Bool}
    (h : Asking e e₁ asked changed) {c : CompiledRule} {rule : Nat}
    (hc : e.network.rule? rule = some c) (hnonMonotonic : c.nonMonotonic = true) :
    (recheckRule c rule).Ends e₁ fun answer e' => ∃ asked',
      Asking e e' asked' (changed || answer) ∧ (∀ a ∈ asked, a ∈ asked') ∧
      ∀ id firing, e₁.firing? ⟨rule, id⟩ = some firing → firing.revisable?.isSome = true →
        (⟨rule, id⟩ : Activation) ∈ asked' := by
  unfold recheckRule
  rw [ends_bind, ends_get, ends_bind]
  refine (ends_mapM (fun rest done e' => ∃ asked',
    Asking e e' asked' (changed || done.any id) ∧ (∀ a ∈ asked, a ∈ asked') ∧
    (∀ x ∈ (e₁.memory rule).revisable, x ∈ rest ∨ (⟨rule, x.1⟩ : Activation) ∈ asked') ∧
    (rest.Pairwise fun x y => x.1 ≠ y.1) ∧
    ∀ x ∈ rest, ∃ firing, e'.firing? ⟨rule, x.1⟩ = some firing ∧
      firing.revisable? = some x.2) ?_ _ [] ?_).mono ?_
  · rintro ⟨id, fired⟩ rest done e₂ ⟨asked', hasking, hasked, hdone, hdistinct, hrest⟩
    have hc₂ : e₂.network.rule? rule = some c := by
      rw [hasking.reasked.network_eq]
      exact hc
    obtain ⟨firing, hfiring, hrevisable⟩ := hrest (id, fired) (List.mem_cons_self ..)
    rw [List.pairwise_cons] at hdistinct
    refine (ends_reconsider (a := ⟨rule, id⟩) hasking.orderly hc₂ hfiring hrevisable).mono ?_
    intro answer e₃ hreconsidered
    have horderly := hreconsidered.orderly hasking.orderly hc₂ hfiring hrevisable
    refine ⟨asked' ++ [⟨rule, id⟩], ⟨?_, horderly⟩, ?_, ?_, hdistinct.2, ?_⟩
    · rw [List.any_append, List.any_cons, List.any_nil, Bool.or_false, ← Bool.or_assoc]
      exact .next hasking.reasked hc₂ hnonMonotonic hfiring hrevisable hreconsidered
    · exact fun a ha => List.mem_append_left _ (hasked a ha)
    · intro x hx
      rcases hdone x hx with hx | hx
      · rcases List.mem_cons.1 hx with rfl | hx
        · exact Or.inr (List.mem_append_right _ (List.mem_singleton.2 rfl))
        · exact Or.inl hx
      · exact Or.inr (List.mem_append_left _ hx)
    · intro x hx
      have hne : (⟨rule, id⟩ : Activation) ≠ ⟨rule, x.1⟩ := by
        intro hsame
        exact hdistinct.1 x hx (congrArg Activation.token hsame)
      rw [hreconsidered.firing?_of_ne (hasking.orderly.stocked.lt_length hc₂) hne]
      exact hrest x (List.mem_cons_of_mem _ hx)
  · refine ⟨asked, by simpa using h, fun a ha => ha, fun x hx => Or.inl hx,
      pairwise_revisable _, ?_⟩
    exact fun x hx => mem_revisable_iff.1 hx
  · rintro answers e' ⟨asked', hasking, hasked, hdone, _, _⟩
    rw [ends_pure]
    refine ⟨asked', by simpa using hasking, hasked, ?_⟩
    intro id firing hfiring hrevisable
    obtain ⟨fired, hfired⟩ := Option.isSome_iff_exists.1 hrevisable
    rcases hdone (id, fired) (mem_revisable_iff.2 ⟨firing, hfiring, hfired⟩) with hx | hx
    · cases hx
    · exact hx

/-- All activations whose answer can change are asked again. -/
theorem ends_recheck (h : e.Orderly) :
    recheck.Ends e fun changed e' => ∃ asked, Asking e e' asked changed ∧
      (changed = false → ∀ a, e.Upheld a) := by
  unfold recheck
  rw [ends_bind, ends_get, ends_bind]
  have hrules : ∀ x : CompiledRule × Nat, x ∈ e.network.rules.zipIdx ↔
      e.network.rule? x.2 = some x.1 := by
    rintro ⟨c, rule⟩
    rw [List.mk_mem_zipIdx_iff_getElem?]
    rfl
  refine (ends_mapM (fun rest done e' => ∃ asked,
    Asking e e' asked (done.any id) ∧
    (∀ x ∈ rest, e.network.rule? x.2 = some x.1 ∧ x.1.nonMonotonic = true) ∧
    (done.any id = false → ∀ a c firing, e.network.rule? a.rule = some c →
      c.nonMonotonic = true → e.firing? a = some firing → firing.revisable?.isSome = true →
      (c, a.rule) ∈ rest ∨ a ∈ asked)) ?_ _ [] ?_).mono ?_
  · rintro ⟨c, rule⟩ rest done e₁ ⟨asked, hasking, hrest, hdone⟩
    obtain ⟨hc, hnonMonotonic⟩ := hrest (c, rule) (List.mem_cons_self ..)
    refine (ends_recheckRule hasking hc hnonMonotonic).mono ?_
    rintro answer e₂ ⟨asked', hasking', hasked, hnew⟩
    refine ⟨asked', by simpa using hasking', fun x hx => hrest x (List.mem_cons_of_mem _ hx), ?_⟩
    intro hnone a c' firing hc' hc'' hfiring hrevisable
    rw [List.any_append, Bool.or_eq_false_iff] at hnone
    rcases hdone hnone.1 a c' firing hc' hc'' hfiring hrevisable with hmem | hmem
    · rcases List.mem_cons.1 hmem with hsame | hmem
      · obtain ⟨rfl, hrule⟩ := Prod.mk.inj hsame
        right
        obtain ⟨r, id⟩ := a
        subst hrule
        apply hnew id firing _ hrevisable
        have hreasked := hasking.reasked
        rw [hnone.1] at hreasked
        rw [hreasked.unchanged.1]
        exact hfiring
      · exact Or.inl hmem
    · exact Or.inr (hasked a hmem)
  · refine ⟨[], ⟨.none, h⟩, ?_, ?_⟩
    · intro x hx
      rw [List.mem_filter] at hx
      exact ⟨(hrules x).1 hx.1, hx.2⟩
    · intro _ a c firing hc hnonMonotonic _ _
      exact Or.inl (List.mem_filter.2 ⟨(hrules (c, a.rule)).2 hc, hnonMonotonic⟩)
  · rintro answers e' ⟨asked, hasking, _, hdone⟩
    rw [List.nil_append] at hasking hdone
    rw [ends_pure]
    refine ⟨asked, hasking, fun hnone a => ?_⟩
    intro c firing fired hc hnonMonotonic hfiring hrevisable
    have hreasked := hasking.reasked
    have hmem : a ∈ asked := by
      rcases hdone hnone a c firing hc hnonMonotonic hfiring (by rw [hrevisable]; rfl) with
        hmem | hmem
      · cases hmem
      · exact hmem
    rw [hnone] at hreasked
    exact hreasked.unchanged.2 a hmem c firing fired hc hnonMonotonic hfiring hrevisable

/-! ## A step -/

theorem ends_step (h : e.Consistent Engine.nothingGone) (hbacked : e.Backed)
    (htame : e.network.Tame) (rechecks : Nat) :
    (step rechecks).Ends e fun answer e' => e.Stepped rechecks answer e' := by
  unfold step
  rw [ends_bind, ends_get]
  split
  · rename_i event events hevents
    simp only [ends_bind, ends_set, ends_pure]
    have hnext : Engine.Consistent { e with events, state := .propagating } _ :=
      (h.next_event hevents).of_agree rfl
    cases event with
    | added t =>
        refine (ends_propagate_added (e := { e with events, state := .propagating })
          h.stocked h.sound h.wired t).mono ?_
        rintro _ e' (⟨hseen, rfl⟩ | ⟨stats, henters⟩)
        · exact .late hevents hseen
        · exact .entered hevents henters
    | deleted t =>
        refine (ends_propagate_deleted hnext hbacked (t := t) ?_).mono ?_
        · rintro r u ⟨v, hv, hsame⟩
          cases hv
          exact hsame
        · rintro _ e' (⟨hseen, rfl⟩ | ⟨hseen, ⟨stats, hforgets⟩, hconsistent, hbacked'⟩)
          · exact .back hevents hseen
          · exact .left hevents hseen hforgets hconsistent hbacked'
  · rename_i a agenda hevents hagenda
    simp only [ends_bind, ends_set, ends_pure]
    have hstart : Engine.Consistent { e with agenda, state := .firing } Engine.nothingGone :=
      h.of_agree rfl
    refine (ends_fire (hstart.orderly hbacked) htame a).mono ?_
    exact fun _ e' hfired => .fired hevents hagenda hfired
  · rename_i t suspects hevents hagenda hpop
    simp only [ends_bind, ends_set, ends_pure]
    refine (ends_checkSupport (e := { e with suspects }) h.deductions t).mono ?_
    exact fun _ e' hreviewed => .reviewed hevents hagenda hpop hreviewed
  · rename_i hevents hagenda hpop
    have hquiet : e.Quiet := ⟨hevents, hagenda, OrderedSet.pop?_eq_none_iff.1 hpop⟩
    split
    · rename_i hstop
      rw [Bool.or_eq_true, decide_eq_true_eq] at hstop
      exact .settled hquiet hstop
    · rename_i hstop
      rw [Bool.or_eq_true, decide_eq_true_eq, not_or] at hstop
      simp only [ends_bind, ends_count]
      set e₀ : Engine MemoryGraph :=
        { e with stats := { e.stats with rechecks := e.stats.rechecks + 1 } } with he₀
      have hstart : e₀.Consistent Engine.nothingGone := h.of_agree (by rw [he₀])
      refine (ends_recheck (hstart.orderly hbacked)).mono ?_
      rintro changed e' ⟨asked, hasking, hupheld⟩
      cases changed with
      | true => exact .changed hquiet (Nat.lt_of_not_le hstop.2) hasking.reasked
      | false =>
          rw [hasking.reasked.unchanged.1]
          exact .upheld hquiet (hupheld rfl)

end Work

end Entailment
