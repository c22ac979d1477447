import Entailment.Proofs.Forward.Receding

/-!
# Consistency of the work in progress

Between two pieces of work every token stands for triples that are in view, or whose
deletion is still to be followed up, and every triple is accounted for: it rests, by
firings that have drawn it, on the base, on committed conclusions, on suspects, and on
triples that are no deductions any more.  The second property is what circular support
alone cannot give, and each way of losing support restores it by a suspect.
-/

namespace Entailment

/-- A triple is given, or a step draws it from triples that rest on what is given. -/
inductive Rests (given : Triple → Prop) (step : List Triple → Triple → Prop) : Triple → Prop where
  | given {t : Triple} : given t → Rests given step t
  | step {ts : List Triple} {t : Triple} :
      step ts t → (∀ m ∈ ts, Rests given step m) → Rests given step t

theorem Rests.transfer {given given' : Triple → Prop}
    {step step' : List Triple → Triple → Prop}
    (hgiven : ∀ t, given t → Rests given' step' t)
    (hstep : ∀ ts t, step ts t →
      Rests given' step' t ∨ ∃ ts', step' ts' t ∧ ∀ m ∈ ts', m ∈ ts)
    {t : Triple} (h : Rests given step t) : Rests given' step' t := by
  induction h with
  | given hgivenT => exact hgiven _ hgivenT
  | step hstepT _ ih =>
      rcases hstep _ _ hstepT with hdone | ⟨ts', hstep', hsubset⟩
      · exact hdone
      · exact .step hstep' fun m hm => ih m (hsubset m hm)

namespace Network

/-- Every pattern but the first of its rule has a plain predicate. -/
def Plain (n : Network) : Prop :=
  ∀ r c (level : Nat) (p : Nat × Triple), n.rule? r = some c →
    c.patterns[level + 1]? = some p → p.2.hasPlainPredicate = true

end Network

namespace Engine

/-- The deletion of the triple is still to be followed up. -/
def Announced {γ : Type} (e : Engine γ) (t : Triple) : Prop :=
  ∃ u, Event.deleted u ∈ e.events ∧ (u == t) = true

/-- The triples of tokens are in view, or known to have left it. -/
def Covered (e : Engine MemoryGraph) (gone : Nat → Triple → Prop) : Prop :=
  ∀ r id token, (e.memory r).node? id = some token →
    e.view.sees token.triple = true ∨ e.Announced token.triple ∨ gone r token.triple

/-- The triple needs no firing to be where it is. -/
def Excused (e : Engine MemoryGraph) (t : Triple) : Prop :=
  e.base.contains t = true ∨ e.committed.contains t = true ∨ e.suspects.contains t = true ∨
    e.deductions.contains t = false

/-- The activation holds up a triple, and has matched the others. -/
def Props {γ : Type} (e : Engine γ) (ts : List Triple) (t : Triple) : Prop :=
  ∃ a ∈ e.supporters t, e.matchedBy a = ts

def Accounted (e : Engine MemoryGraph) : Triple → Prop := Rests e.Excused e.Props

/-- What holds between two pieces of work, apart from triples that are gone. -/
structure Consistent (e : Engine MemoryGraph) (gone : Nat → Triple → Prop) : Prop where
  wired : e.network.Wired
  plain : e.network.Plain
  base : e.base.Sound
  deductions : e.deductions.Sound
  stocked : e.Stocked
  covered : e.Covered gone
  accounted : ∀ t, e.Accounted t

/-- No triple is gone without being announced. -/
def nothingGone : Nat → Triple → Prop := fun _ _ => False

theorem Excused.congr {e : Engine MemoryGraph} {t u : Triple} (h : e.Excused t)
    (hsame : (t == u) = true) : e.Excused u := by
  unfold Excused at h ⊢
  rwa [← e.base.contains_congr hsame, ← e.committed.contains_congr hsame,
    ← e.suspects.contains_congr hsame, ← e.deductions.contains_congr hsame]

namespace Consistent

variable {e e' : Engine MemoryGraph} {gone gone' : Nat → Triple → Prop}

theorem sound (h : e.Consistent gone) : e.view.Sound := ⟨h.base, h.deductions⟩

theorem orderly (h : e.Consistent gone) (hbacked : e.Backed) : e.Orderly :=
  ⟨h.wired, h.base, h.deductions, h.stocked, hbacked⟩

theorem weaken (h : e.Consistent gone)
    (himp : ∀ r id token, (e.memory r).node? id = some token → gone r token.triple →
      e.view.sees token.triple = true ∨ e.Announced token.triple ∨ gone' r token.triple) :
    e.Consistent gone' := by
  refine { h with covered := ?_ }
  intro r id token hid
  rcases h.covered r id token hid with hseen | hannounced | hgone
  · exact Or.inl hseen
  · exact Or.inr (Or.inl hannounced)
  · exact himp r id token hid hgone

/-- What is kept for reports, for the agenda and for the world does not matter. -/
theorem of_agree (h : e.Consistent gone)
    (hagree : e' = { e with
      agenda := e'.agenda
      derivations := e'.derivations
      hidden := e'.hidden
      logging := e'.logging
      traceFirings := e'.traceFirings
      maxRechecks := e'.maxRechecks
      state := e'.state
      stats := e'.stats
      world := e'.world }) : e'.Consistent gone := by
  rw [hagree]
  exact ⟨h.wired, h.plain, h.base, h.deductions, h.stocked, h.covered, h.accounted⟩

theorem recedes (h : e.Consistent gone) (hr : e.Recedes e') : e'.Consistent gone where
  wired := by
    rw [hr.network_eq]
    exact h.wired
  plain := by
    rw [hr.network_eq]
    exact h.plain
  base := by
    rw [hr.base_eq]
    exact h.base
  deductions := hr.sound
  stocked := by
    rw [hr.frame]
    exact h.stocked
  covered r id token hid := by
    rw [hr.memory_eq] at hid
    obtain ⟨ts, hevents, hts⟩ := hr.announces
    rcases h.covered r id token hid with hseen | ⟨u, hu, hsame⟩ | hgone
    · cases hafter : e'.view.sees token.triple with
      | true => exact Or.inl rfl
      | false =>
          obtain ⟨u, hu, hsame⟩ := List.any_eq_true.1 (hts _ hseen hafter)
          refine Or.inr (Or.inl ⟨u, ?_, hsame⟩)
          rw [hevents]
          exact List.mem_append_right _ (List.mem_map_of_mem hu)
    · refine Or.inr (Or.inl ⟨u, ?_, hsame⟩)
      rw [hevents]
      exact List.mem_append_left _ hu
    · exact Or.inr (Or.inr hgone)
  accounted t := by
    refine (h.accounted t).transfer ?_ ?_
    · rintro u (hbase | hcommitted | hsuspect | habsent)
      · refine .given (Or.inl ?_)
        rw [hr.base_eq]
        exact hbase
      · refine .given (Or.inr (Or.inl ?_))
        rw [hr.committed_eq]
        exact hcommitted
      · exact .given (Or.inr (Or.inr (Or.inl (hr.suspects u hsuspect))))
      · refine .given (Or.inr (Or.inr (Or.inr ?_)))
        rw [Bool.eq_false_iff]
        intro hback
        rw [hr.shrinks u hback] at habsent
        cases habsent
    · rintro ts u ⟨a, ha, hmatched⟩
      by_cases ha' : a ∈ e'.supporters u
      · refine Or.inr ⟨ts, ⟨a, ha', ?_⟩, fun m hm => hm⟩
        rw [matchedBy, hr.memory_eq]
        exact hmatched
      · left
        rcases hr.doubted u a ha ha' with hcommitted | hsuspect | habsent
        · refine .given (Or.inr (Or.inl ?_))
          rw [hr.committed_eq]
          exact hcommitted
        · exact .given (Or.inr (Or.inr (Or.inl hsuspect)))
        · exact .given (Or.inr (Or.inr (Or.inr habsent)))

/-- When the tokens that hold a triple are removed, it is gone from this rule no more. -/
theorem cleared (h : e.Consistent gone) {rule : Nat} {c : CompiledRule}
    (hc : e.network.rule? rule = some c) (t : Triple) :
    (e.cleared rule t).Consistent fun r u => gone r u ∧ ¬(r = rule ∧ (t == u) = true) where
  wired := h.wired
  plain := h.plain
  base := h.base
  deductions := h.deductions
  stocked := h.stocked.cleared hc t
  covered r id token hid := by
    have hm := h.stocked.2 rule
    have hcleared := hm.cleared_removeHolding t
    rw [memory_cleared (h.stocked.lt_length hc)] at hid
    change e.view.sees token.triple = true ∨ e.Announced token.triple ∨ _
    split at hid
    · rename_i hr
      obtain ⟨hold, hnot⟩ := (hcleared.node?_iff id token).1 hid
      rw [hr] at hold
      rcases h.covered r id token hold with hseen | hannounced | hgone
      · exact Or.inl hseen
      · exact Or.inr (Or.inl hannounced)
      · refine Or.inr (Or.inr ⟨hgone, ?_⟩)
        rintro ⟨_, hsame⟩
        apply hnot
        rw [← hr] at hold
        obtain ⟨ts, hts⟩ := hm.rooted.exists_spells hold
        obtain ⟨found, below, hfound, _, rfl⟩ := hts.exists_token
        rw [hold] at hfound
        obtain rfl := Option.some.inj hfound
        exact ⟨_, hts, by simp [BEq.symm hsame]⟩
    · rename_i hr
      rcases h.covered r id token hid with hseen | hannounced | hgone
      · exact Or.inl hseen
      · exact Or.inr (Or.inl hannounced)
      · exact Or.inr (Or.inr ⟨hgone, fun hsame => hr hsame.1.symm⟩)
  accounted t' := by
    have hm := h.stocked.2 rule
    have hcleared := hm.cleared_removeHolding t
    refine (h.accounted t').transfer (fun u hu => .given hu) ?_
    rintro ts u ⟨a, ha, rfl⟩
    refine Or.inr ⟨_, ⟨a, ha, rfl⟩, ?_⟩
    intro m hm'
    have hafter := matchedBy_setMemory ((e.memory rule).removeHolding t).2
      (h.stocked.lt_length hc) a
    rw [show (e.cleared rule t).matchedBy a = _ from hafter] at hm'
    split at hm'
    · rename_i hr
      -- A token that was removed has matched nothing now, so nothing is asked of it.
      by_cases held : (e.memory rule).Holds a.token t
      · rw [hcleared.triples_of_holds held] at hm'
        cases hm'
      · rw [hcleared.triples_eq hm.rooted held] at hm'
        rw [matchedBy, ← hr]
        exact hm'
    · exact hm'

/-- The first event has been taken up. -/
theorem next_event (h : e.Consistent nothingGone) {event : Event} {events : List Event}
    (hevents : e.events = event :: events) :
    Consistent { e with events } fun _ u => ∃ t, event = .deleted t ∧ (t == u) = true where
  wired := h.wired
  plain := h.plain
  base := h.base
  deductions := h.deductions
  stocked := h.stocked
  covered r id token hid := by
    rcases h.covered r id token hid with hseen | ⟨u, hu, hsame⟩ | hgone
    · exact Or.inl hseen
    · rw [hevents] at hu
      rcases List.mem_cons.1 hu with rfl | hu
      · exact Or.inr (Or.inr ⟨u, rfl, hsame⟩)
      · exact Or.inr (Or.inl ⟨u, hu, hsame⟩)
    · exact hgone.elim
  accounted := h.accounted

/-- Whatever token has a triple that left the view belongs to a rule that it activates. -/
theorem gone_of_activations (h : e.Consistent gone) {t : Triple}
    (hgone : ∀ r u, gone r u → (t == u) = true) :
    e.Consistent fun r u =>
      (t == u) = true ∧ r ∈ (e.network.activations t).map Subscriber.rule := by
  apply h.weaken
  intro r id token hid hgoneT
  have hsame := hgone r _ hgoneT
  refine Or.inr (Or.inr ⟨hsame, ?_⟩)
  have hm := h.stocked.2 r
  cases hc : e.network.rule? r with
  | none =>
      rw [(hm.vacant hc id).1] at hid
      cases hid
  | some c =>
      obtain ⟨p, hp, hfits, hground⟩ := hm.exists_fit hc hid
      have hplain : p.2.hasPlainPredicate = true := by
        cases hlevel : token.level with
        | zero => exact hm.entered c hc id token hid p (hlevel ▸ hp)
        | succ level => exact h.plain r c level p hc (hlevel ▸ hp)
      have hlistens := (h.wired.rule r c hc).listens _ _ hp
      have hactive := h.wired.filed.mem_activations (t := t) hlistens hplain
        (by rw [Triple.isGround_congr hsame]; exact hground)
        (hfits.congr (fun i _ => BEq.rfl) (BEq.symm hsame))
      exact List.mem_map.2 ⟨_, hactive, rfl⟩

end Consistent

end Engine

namespace Work

/-- A property survives the removal of the tokens that hold a triple, where the triple
is in view no more. -/
def SurvivesLoss (kept : Engine MemoryGraph → Prop) (t : Triple) : Prop :=
  ∀ (e e' : Engine MemoryGraph) gone rule c, e.Consistent gone → e.Backed →
    e.network.rule? rule = some c → e.view.sees t = false →
    (e.cleared rule t).Recedes e' → (e.cleared rule t).Abandons e' → e'.Backed →
    kept e → kept e'

/-- The rules that a triple activates lose their tokens that hold it. -/
theorem ends_retractAll {e : Engine MemoryGraph} {gone : Nat → Triple → Prop}
    (h : e.Consistent gone) (hbacked : e.Backed) {t : Triple}
    (hgone : ∀ r u, gone r u → (t == u) = true) (hseen : e.view.sees t = false)
    (kept : Engine MemoryGraph → Prop) (hsurvives : SurvivesLoss kept t) (hkept : kept e) :
    (((e.network.activations t).map Subscriber.rule).eraseDups.forM (retractTokens t)).Ends e
      fun _ e' => e'.Consistent Engine.nothingGone ∧ e'.Backed ∧ kept e' := by
  have hrules : ∀ r ∈ ((e.network.activations t).map Subscriber.rule).eraseDups,
      ∃ c, e.network.rule? r = some c := by
    intro r hr
    rw [List.mem_eraseDups] at hr
    obtain ⟨s, hs, rfl⟩ := List.mem_map.1 hr
    exact h.wired.rule_of_mem_activations hs
  refine (ends_forM (fun rest e' => (∀ r ∈ rest, ∃ c, e'.network.rule? r = some c) ∧
    e'.Consistent (fun r u => (t == u) = true ∧ r ∈ rest) ∧ e'.Backed ∧
    e'.view.sees t = false ∧ kept e') ?_ _ ⟨hrules, ?_, hbacked, hseen, hkept⟩).mono ?_
  · rintro rule rest e₁ ⟨hrest, hconsistent, hbacked₁, hseen₁, hkept₁⟩
    obtain ⟨c, hc⟩ := hrest rule (List.mem_cons_self ..)
    refine (ends_retractTokens hconsistent.deductions hconsistent.stocked hbacked₁ hc t).mono ?_
    rintro _ e₂ ⟨hrecedes, habandons, hbacked₂⟩
    refine ⟨?_, ?_, hbacked₂, ?_, ?_⟩
    · intro r hr
      rw [hrecedes.network_eq]
      exact hrest r (List.mem_cons_of_mem _ hr)
    · apply ((hconsistent.cleared hc t).recedes hrecedes).weaken
      rintro r id token _ ⟨⟨hsame, hmem⟩, hnot⟩
      refine Or.inr (Or.inr ⟨hsame, ?_⟩)
      rcases List.mem_cons.1 hmem with rfl | hmem
      · exact absurd ⟨rfl, hsame⟩ hnot
      · exact hmem
    · rw [Bool.eq_false_iff] at hseen₁ ⊢
      exact fun hback => hseen₁ (hrecedes.sees hback)
    · exact hsurvives e₁ e₂ _ rule c hconsistent hbacked₁ hc hseen₁ hrecedes habandons hbacked₂ hkept₁
  · apply (h.gone_of_activations hgone).weaken
    rintro r id token _ ⟨hsame, hmem⟩
    exact Or.inr (Or.inr ⟨hsame, List.mem_eraseDups.2 hmem⟩)
  · rintro _ e' ⟨_, hconsistent, hbacked', _, hkept'⟩
    refine ⟨hconsistent.weaken ?_, hbacked', hkept'⟩
    rintro r id token _ ⟨_, hmem⟩
    cases hmem

end Work

end Entailment
