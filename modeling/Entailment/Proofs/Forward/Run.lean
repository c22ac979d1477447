import Entailment.Proofs.Forward.Step

/-!
# Runs

A run does steps until nothing is left.  It keeps whatever every step keeps, it never
fails, and when it ends nothing waits.
-/

namespace Entailment

namespace Engine

/-- What every step keeps. -/
structure Steady (e : Engine MemoryGraph) : Prop where
  consistent : e.Consistent nothingGone
  backed : e.Backed
  tame : e.network.Tame

variable {e e' e'' : Engine MemoryGraph} {rechecks : Nat} {answer : Option Nat}

theorem Steady.of_agree (h : e.Steady)
    (hagree : e' = { e with
      agenda := e'.agenda
      derivations := e'.derivations
      hidden := e'.hidden
      logging := e'.logging
      traceFirings := e'.traceFirings
      maxRechecks := e'.maxRechecks
      state := e'.state
      stats := e'.stats
      world := e'.world }) : e'.Steady where
  consistent := h.consistent.of_agree hagree
  backed := by
    rw [hagree]
    exact h.backed
  tame := by
    rw [hagree]
    exact h.tame

theorem not_announced_of_events (h : e.events = []) (t : Triple) : ¬ e.Announced t := by
  rintro ⟨u, hu, _⟩
  rw [h] at hu
  cases hu

theorem Forgets.network_eq {t : Triple} (h : e.Forgets t e') : e'.network = e.network := by
  induction h with
  | refl => rfl
  | next _ _ _ _ _ hrecedes _ _ ih =>
      rw [hrecedes.network_eq, ← ih]
      rfl

theorem Fired.network_eq {a : Activation} (h : e.Fired a e') : e'.network = e.network := by
  cases h with
  | stale => rfl
  | blocked _ _ _ _ hframe =>
      rw [hframe]
      rfl
  | drawn _ _ _ _ hframe hadopts hpurges =>
      rw [hpurges.frame, hadopts.frame, hframe]
      rfl

theorem Reviewed.network_eq {t : Triple} (h : e.Reviewed e' t) : e'.network = e.network := by
  rcases h with ⟨hframe, _⟩ | ⟨hframe, _⟩
  · rw [hframe]
  · rw [hframe]
    rfl

theorem Stepped.network_eq (h : e.Stepped rechecks answer e') : e'.network = e.network := by
  cases h with
  | late | back | settled | upheld => rfl
  | entered _ henters => exact henters.grown.network_eq
  | left _ _ hforgets _ _ => exact hforgets.network_eq
  | fired _ _ hfired => exact hfired.network_eq
  | reviewed _ _ _ hreviewed => exact hreviewed.network_eq
  | changed _ _ hreasked => exact hreasked.network_eq

theorem Reasked.sound {asked : List Activation} {changed : Bool}
    (h : e.Reasked asked changed e') (hconsistent : e.Consistent nothingGone)
    (hbacked : e.Backed) : e'.Consistent nothingGone ∧ e'.Backed := by
  induction h with
  | none => exact ⟨hconsistent, hbacked⟩
  | next _ hc _ hfiring hrevisable hreconsidered ih =>
      exact hreconsidered.sound ih.1 ih.2 hc hfiring hrevisable

theorem Stepped.steady (h : e.Stepped rechecks answer e') (he : e.Steady) : e'.Steady := by
  have htame : e'.network.Tame := by
    rw [h.network_eq]
    exact he.tame
  suffices hsound : e'.Consistent nothingGone ∧ e'.Backed from ⟨hsound.1, hsound.2, htame⟩
  have htaken : ∀ {event : Event} {events : List Event}, e.events = event :: events →
      (∀ t, event = .deleted t → e.view.sees t = true) →
      Consistent { e with events } nothingGone := by
    intro event events hevents hseen
    apply (he.consistent.next_event hevents).weaken
    rintro r id token _ ⟨t, rfl, hsame⟩
    left
    change e.view.sees token.triple = true
    rw [← e.view.sees_congr hsame]
    exact hseen t rfl
  cases h with
  | late hevents _ =>
      refine ⟨(htaken hevents fun t h => nomatch h).of_agree rfl, he.backed⟩
  | @entered _ events stats _ hevents henters =>
      have hstart : Consistent { e with events, state := .propagating, stats } nothingGone :=
        (htaken hevents fun t h => nomatch h).of_agree rfl
      exact ⟨henters.grown.consistent he.backed hstart, henters.grown.backed he.backed⟩
  | @back t _ hevents hseen =>
      refine ⟨(htaken hevents fun u h => ?_).of_agree rfl, he.backed⟩
      cases h
      exact hseen
  | left _ _ _ hconsistent hbacked => exact ⟨hconsistent, hbacked⟩
  | @fired a agenda _ hevents _ hfired =>
      exact Fired.sound (e := { e with agenda, state := .firing }) (he.consistent.of_agree rfl)
        he.backed (not_announced_of_events hevents) hfired
  | @reviewed t suspects _ _ _ hpop hreviewed =>
      exact ⟨hreviewed.consistent he.consistent hpop,
        Reviewed.backed (e := { e with suspects }) he.backed hreviewed⟩
  | settled => exact ⟨he.consistent, he.backed⟩
  | changed _ _ hreasked => exact hreasked.sound (he.consistent.of_agree rfl) he.backed
  | upheld => exact ⟨he.consistent.of_agree rfl, he.backed⟩

/-- A run from the first engine, that has asked activations again so and so often, ends
in the second. -/
inductive Runs : Nat → Engine MemoryGraph → Nat → Engine MemoryGraph → Prop where
  | stop {rechecks : Nat} {e e' : Engine MemoryGraph} :
      Work.step rechecks e = .ok none e' → Runs rechecks e rechecks { e' with state := .idle }
  | next {rechecks more last : Nat} {e e₁ e' : Engine MemoryGraph} :
      Work.step rechecks e = .ok (some more) e₁ → Runs more e₁ last e' → Runs rechecks e last e'

theorem Steady.stepped (he : e.Steady) (h : Work.step rechecks e = .ok answer e') :
    e.Stepped rechecks answer e' := by
  obtain ⟨_, _, hstep, hstepped⟩ :=
    (Work.ends_step he.consistent he.backed he.tame rechecks).exists_ok
  rw [h] at hstep
  cases hstep
  exact hstepped

theorem Steady.exists_step (he : e.Steady) (rechecks : Nat) :
    ∃ answer e', Work.step rechecks e = .ok answer e' ∧ e.Stepped rechecks answer e' :=
  (Work.ends_step he.consistent he.backed he.tame rechecks).exists_ok

/-- A run that uses up its budget does not end; any other is done, without a failure. -/
theorem Steady.run_cases (he : e.Steady) (budget rechecks : Nat) :
    run budget rechecks e = .unfinished ∨
      ∃ last e', run budget rechecks e = .done () e' ∧ Runs rechecks e last e' := by
  induction budget generalizing rechecks e with
  | zero => exact Or.inl rfl
  | succ budget ih =>
      obtain ⟨answer, e₁, hstep, hstepped⟩ := he.exists_step rechecks
      cases answer with
      | none =>
          refine Or.inr ⟨rechecks, _, ?_, .stop hstep⟩
          simp only [run, hstep]
      | some more =>
          simp only [run, hstep]
          rcases ih (hstepped.steady he) more with hrun | ⟨last, e', hrun, hruns⟩
          · exact Or.inl hrun
          · exact Or.inr ⟨last, e', hrun, .next hstep hruns⟩

/-- What every step keeps is kept by a run, up to its last step. -/
theorem Runs.keeps {last : Nat} (h : Runs rechecks e last e')
    (kept : Nat → Engine MemoryGraph → Prop) (he : e.Steady)
    (hstep : ∀ (r more : Nat) (e e' : Engine MemoryGraph), e.Steady → kept r e →
      e.Stepped r (some more) e' → kept more e')
    (hkept : kept rechecks e) :
    ∃ e₁ e₂, e₁.Steady ∧ kept last e₁ ∧ e₁.Stepped last none e₂ ∧
      e' = { e₂ with state := .idle } := by
  induction h with
  | stop hwork => exact ⟨_, _, he, hkept, he.stepped hwork, rfl⟩
  | next hwork _ ih =>
      have hstepped := he.stepped hwork
      exact ih (hstepped.steady he) (hstep _ _ _ _ he hkept hstepped)

theorem Stepped.quiet (h : e.Stepped rechecks none e') : e'.Quiet := by
  cases h with
  | settled hquiet _ => exact hquiet
  | upheld hquiet _ => exact ⟨hquiet.events, hquiet.agenda, hquiet.suspects⟩

/-- A run ends where nothing waits, and all is as steady as before. -/
theorem Runs.steady {last : Nat} (h : Runs rechecks e last e') (he : e.Steady) :
    e'.Steady ∧ e'.Quiet ∧ e'.state = .idle := by
  obtain ⟨e₁, e₂, he₁, _, hstepped, rfl⟩ :=
    h.keeps (fun _ _ => True) he (fun _ _ _ _ _ _ _ => trivial) trivial
  have hquiet := hstepped.quiet
  exact ⟨(hstepped.steady he₁).of_agree rfl, ⟨hquiet.events, hquiet.agenda, hquiet.suspects⟩, rfl⟩

/-- When nothing waits, every triple in view is grounded. -/
theorem Steady.grounded (he : e.Steady) (hquiet : e.Quiet) {t : Triple}
    (ht : e.view.sees t = true) : e.Grounded t := by
  have hclean := not_announced_of_events hquiet.events
  have hseen : ∀ {a : Activation} {u : Triple}, u ∈ e.matchedBy a → e.view.sees u = true :=
    fun hu => he.consistent.sees_of_mem_matchedBy hclean hu
  have haccounted := he.consistent.accounted t
  induction haccounted with
  | @given u hexcused =>
      rcases hexcused with hbase | hcommitted | hsuspect | habsent
      · exact .given (Or.inl hbase)
      · exact .given (Or.inr hcommitted)
      · rw [OrderedSet.contains, hquiet.suspects] at hsuspect
        cases hsuspect
      · refine .given (Or.inl ?_)
        change (e.base.contains u || e.deductions.contains u) = true at ht
        rw [habsent, Bool.or_false] at ht
        exact ht
  | @step ts u hprops _ ih =>
      obtain ⟨a, ha, rfl⟩ := hprops
      cases hdeduced : e.deductions.contains u with
      | true =>
          exact .step ⟨hdeduced, a, ha, rfl⟩ fun m hm => ih m hm (hseen hm)
      | false =>
          refine .given (Or.inl ?_)
          change (e.base.contains u || e.deductions.contains u) = true at ht
          rw [hdeduced, Bool.or_false] at ht
          exact ht

end Engine

end Entailment
