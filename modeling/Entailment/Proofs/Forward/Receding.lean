import Entailment.Proofs.Forward.Stock
import Entailment.Proofs.Forward.Work

/-!
# Taking conclusions back

When a firing is taken back, each of its conclusions loses one supporter.  Whatever
the order in which this happens, the deductions only shrink, what leaves the view is
announced, and a conclusion that has lost a supporter and is still deduced is either
committed or among the suspects.
-/

namespace Entailment

namespace Engine

/-- The triple is in view no more, as far as the deductions can tell. -/
def withdrawn (e : Engine MemoryGraph) (t : Triple) : Engine MemoryGraph :=
  { e with
    deductions := e.deductions.minus t
    events :=
      if e.deductions.contains t && !e.base.contains t then e.events ++ [.deleted t]
      else e.events }

/-- What there is to follow up once no more is drawn: a deduction that goes is announced,
and a supporter that goes leaves a suspect. -/
def burden {γ : Type} (e : Engine γ) : Nat :=
  2 * e.deductions.size + e.events.length + e.suspects.size + e.support.weight OrderedSet.size

/-- Some conclusions have been taken back, and nothing else has changed but what is
kept for reports. -/
structure Recedes (e e' : Engine MemoryGraph) : Prop where
  frame : e' = { e with
    events := e'.events
    support := e'.support
    suspects := e'.suspects
    deductions := e'.deductions
    derivations := e'.derivations
    hidden := e'.hidden
    stats := e'.stats }
  sound : e'.deductions.Sound
  shrinks : ∀ t, e'.deductions.contains t = true → e.deductions.contains t = true
  announces : ∃ ts : List Triple, e'.events = e.events ++ ts.map .deleted ∧
    ∀ t, e.view.sees t = true → e'.view.sees t = false → ts.any (· == t) = true
  supporters : ∀ t a, a ∈ e'.supporters t → a ∈ e.supporters t
  suspects : ∀ t, e.suspects.contains t = true → e'.suspects.contains t = true
  doubted : ∀ t a, a ∈ e.supporters t → a ∉ e'.supporters t →
    e.committed.contains t = true ∨ e'.suspects.contains t = true ∨
      e'.deductions.contains t = false
  burden : e'.burden ≤ e.burden

/-- What is no deduction any more has no supporter left and was not committed, and what has
lost its last supporter is no deduction any more, unless it is committed. -/
structure Abandons (e e' : Engine MemoryGraph) : Prop where
  empty : ∀ t, e.deductions.contains t = true → e'.deductions.contains t = false →
    e'.supporters t = []
  held : ∀ t, e'.deductions.contains t = true → e'.supporters t = [] →
    e.supporters t = [] ∨ e.committed.contains t = true
  spared : ∀ t, e.committed.contains t = true → e.deductions.contains t = true →
    e'.deductions.contains t = true

/-- The given supporters are gone, and no others. -/
def Loses (e e' : Engine MemoryGraph) (lost : Activation → Triple → Prop) : Prop :=
  ∀ t a, a ∈ e'.supporters t ↔ a ∈ e.supporters t ∧ ¬ lost a t

theorem supporters_congr {γ : Type} (e : Engine γ) {t u : Triple} (h : (t == u) = true) :
    e.supporters t = e.supporters u := by
  rw [supporters, supporters, e.support.get?_congr h]

theorem supporters_erase {γ : Type} (e : Engine γ) (t u : Triple) :
    ({ e with support := e.support.erase t } : Engine γ).supporters u =
      if t == u then [] else e.supporters u := by
  simp only [supporters, OrderedMap.get?_erase]
  cases t == u <;> rfl

theorem supporters_insert {γ : Type} (e : Engine γ) (t u : Triple) (s : OrderedSet Activation) :
    ({ e with support := e.support.insert t s } : Engine γ).supporters u =
      if t == u then s.members else e.supporters u := by
  simp only [supporters, OrderedMap.get?_insert]
  cases t == u <;> rfl

namespace Recedes

variable {e e' e'' : Engine MemoryGraph}

theorem refl (hsound : e.deductions.Sound) : e.Recedes e where
  frame := rfl
  sound := hsound
  shrinks _ h := h
  announces := ⟨[], by simp, fun t h h' => by rw [h] at h'; cases h'⟩
  supporters _ _ h := h
  suspects _ h := h
  doubted _ _ h h' := absurd h h'
  burden := Nat.le_refl _

theorem base_eq (h : e.Recedes e') : e'.base = e.base := by rw [h.frame]

theorem committed_eq (h : e.Recedes e') : e'.committed = e.committed := by rw [h.frame]

theorem memories_eq (h : e.Recedes e') : e'.memories = e.memories := by rw [h.frame]

theorem network_eq (h : e.Recedes e') : e'.network = e.network := by rw [h.frame]

theorem memory_eq (h : e.Recedes e') (r : Nat) : e'.memory r = e.memory r := by
  rw [memory, memory, h.memories_eq]

theorem sees (h : e.Recedes e') {t : Triple} (ht : e'.view.sees t = true) :
    e.view.sees t = true := by
  rw [View.sees, Bool.or_eq_true] at ht ⊢
  rcases ht with hbase | hdeduced
  · left
    have hsame := h.base_eq
    change e'.base.contains t = true at hbase
    rwa [hsame] at hbase
  · exact Or.inr (h.shrinks t hdeduced)

theorem trans (h : e.Recedes e') (k : e'.Recedes e'') : e.Recedes e'' where
  frame := by rw [k.frame, h.frame]
  sound := k.sound
  shrinks t ht := h.shrinks t (k.shrinks t ht)
  announces := by
    obtain ⟨ts, hevents, hts⟩ := h.announces
    obtain ⟨us, hevents', hus⟩ := k.announces
    refine ⟨ts ++ us, by rw [hevents', hevents]; simp, ?_⟩
    intro t hbefore hafter
    rw [List.any_append, Bool.or_eq_true]
    cases hmid : e'.view.sees t with
    | true => exact Or.inr (hus t hmid hafter)
    | false => exact Or.inl (hts t hbefore hmid)
  supporters t a ha := h.supporters t a (k.supporters t a ha)
  suspects t ht := k.suspects t (h.suspects t ht)
  doubted t a ha ha'' := by
    by_cases ha' : a ∈ e'.supporters t
    · rw [← h.committed_eq]
      exact k.doubted t a ha' ha''
    · rcases h.doubted t a ha ha' with hc | hs | hd
      · exact Or.inl hc
      · exact Or.inr (Or.inl (k.suspects t hs))
      · right
        right
        rw [Bool.eq_false_iff]
        intro hback
        rw [k.shrinks t hback] at hd
        cases hd
  burden := Nat.le_trans k.burden h.burden

end Recedes

theorem recedes_of_reports {e : Engine MemoryGraph} (hsound : e.deductions.Sound)
    (hidden : OrderedMap Node Nat) (stats : EngineStats) : e.Recedes { e with hidden, stats } :=
  { Recedes.refl hsound with frame := rfl }

namespace Abandons

variable {e e' e'' : Engine MemoryGraph}

/-- The deductions are as before, and so is whatever has no supporter. -/
theorem of_deductions_eq (hdeductions : e'.deductions = e.deductions)
    (hsupporters : ∀ t, e'.supporters t = [] → e.supporters t = [] ∨ e.committed.contains t = true) :
    e.Abandons e' where
  empty t hbefore hafter := by
    rw [hdeductions, hbefore] at hafter
    cases hafter
  held t _ hnone := hsupporters t hnone
  spared t _ hbefore := by rwa [hdeductions]

theorem refl : e.Abandons e := of_deductions_eq rfl fun _ => Or.inl

theorem trans (h : e.Abandons e') (k : e'.Abandons e'') (hrecedes : e.Recedes e')
    (hrecedes' : e'.Recedes e'') : e.Abandons e'' where
  empty t hbefore hafter := by
    cases hmid : e'.deductions.contains t with
    | true => exact k.empty t hmid hafter
    | false =>
        have hnone := h.empty t hbefore hmid
        rw [List.eq_nil_iff_forall_not_mem] at hnone ⊢
        exact fun a ha => hnone a (hrecedes'.supporters t a ha)
  held t hafter hnone := by
    rcases k.held t hafter hnone with hmid | hcommitted
    · exact h.held t (hrecedes'.shrinks t hafter) hmid
    · rw [hrecedes.committed_eq] at hcommitted
      exact Or.inr hcommitted
  spared t hcommitted hbefore :=
    k.spared t (hrecedes.committed_eq ▸ hcommitted) (h.spared t hcommitted hbefore)

end Abandons

/-- To withdraw a conclusion is to recede, where its supporters do not matter. -/
theorem recedes_withdrawn {e : Engine MemoryGraph} (hsound : e.deductions.Sound) (t : Triple) :
    e.Recedes (e.withdrawn t) where
  frame := rfl
  sound := hsound.minus t
  shrinks u hu := by
    change (e.deductions.minus t).contains u = true at hu
    rw [hsound.contains_minus, Bool.and_eq_true] at hu
    exact hu.1
  announces := by
    have hgone : ∀ u, e.view.sees u = true → (e.withdrawn t).view.sees u = false →
        (t == u) = true ∧ e.deductions.contains u = true ∧ e.base.contains u = false := by
      intro u hbefore hafter
      change (e.base.contains u || e.deductions.contains u) = true at hbefore
      change (e.base.contains u || (e.deductions.minus t).contains u) = false at hafter
      rw [Bool.or_eq_false_iff, hsound.contains_minus] at hafter
      rw [hafter.1, Bool.false_or] at hbefore
      rw [hbefore] at hafter
      exact ⟨by simpa using hafter.2, hbefore, hafter.1⟩
    cases hheld : e.deductions.contains t && !e.base.contains t with
    | true =>
        refine ⟨[t], ?_, ?_⟩
        · simp only [withdrawn, hheld]
          rfl
        · intro u hbefore hafter
          simpa using (hgone u hbefore hafter).1
    | false =>
        refine ⟨[], ?_, ?_⟩
        · simp only [withdrawn, hheld]
          simp
        · intro u hbefore hafter
          obtain ⟨hsame, hdeduced, hbase⟩ := hgone u hbefore hafter
          rw [e.deductions.contains_congr hsame, e.base.contains_congr hsame, hdeduced, hbase]
            at hheld
          cases hheld
  supporters _ _ h := h
  suspects _ h := h
  doubted _ _ h h' := absurd h h'
  burden := by
    change 2 * (e.deductions.minus t).size + (e.withdrawn t).events.length + e.suspects.size +
      e.support.weight OrderedSet.size ≤ 2 * e.deductions.size + e.events.length +
      e.suspects.size + e.support.weight OrderedSet.size
    cases hheld : e.deductions.contains t && !e.base.contains t with
    | true =>
        have hlt := hsound.size_minus_lt (Bool.and_eq_true _ _ ▸ hheld).1
        simp only [withdrawn, hheld, if_true, List.length_append, List.length_singleton]
        omega
    | false =>
        have hle := hsound.size_minus_le t
        simp only [withdrawn, hheld, Bool.false_eq_true, if_false]
        omega

/-- A conclusion that has lost a supporter is committed, in doubt, or no deduction. -/
theorem recedes_lost {e : Engine MemoryGraph} (hsound : e.deductions.Sound) {a : Activation}
    {t : Triple} {d : DerivationLog} {support : OrderedMap Triple (OrderedSet Activation)}
    {suspects : OrderedSet Triple}
    (hrel : ∀ u b, b ∈ ({ e with support } : Engine MemoryGraph).supporters u ↔
      b ∈ e.supporters u ∧ ¬((t == u) = true ∧ b = a))
    (hsuspects : ∀ u, e.suspects.contains u = true → suspects.contains u = true)
    (hdoubted : e.committed.contains t = true ∨ suspects.contains t = true ∨
      e.deductions.contains t = false)
    (hburden : suspects.size + support.weight OrderedSet.size ≤
      e.suspects.size + e.support.weight OrderedSet.size) :
    e.Recedes { e with derivations := d, support, suspects } where
  frame := rfl
  sound := hsound
  shrinks _ h := h
  announces := by
    refine ⟨[], by simp, ?_⟩
    intro u hbefore hafter
    change e.view.sees u = false at hafter
    rw [hbefore] at hafter
    cases hafter
  supporters u b hb := ((hrel u b).1 hb).1
  suspects := hsuspects
  doubted u b hb hb' := by
    have hsame : (t == u) = true := by
      by_contra hdifferent
      exact hb' ((hrel u b).2 ⟨hb, fun h => hdifferent h.1⟩)
    rw [← e.committed.contains_congr hsame, ← suspects.contains_congr hsame,
      ← e.deductions.contains_congr hsame]
    exact hdoubted
  burden := by
    change 2 * e.deductions.size + e.events.length + suspects.size +
      support.weight OrderedSet.size ≤ 2 * e.deductions.size + e.events.length +
      e.suspects.size + e.support.weight OrderedSet.size
    omega

end Engine

namespace Work

theorem ends_retractDeduction {e : Engine MemoryGraph} (hsound : e.deductions.Sound) (t : Triple)
    {post : Bool → Engine MemoryGraph → Prop}
    (hpost : post (e.deductions.contains t) { e with deductions := e.deductions.minus t }) :
    (retractDeduction t).Ends e post := by
  unfold retractDeduction
  simp only [ends_bind, ends_get, hsound.delete_eq, ends_access]
  exact hpost

theorem ends_inBase {e : Engine MemoryGraph} {t : Triple}
    {post : Bool → Engine MemoryGraph → Prop} :
    (inBase t).Ends e post ↔ post (e.base.contains t) e := Iff.rfl

theorem ends_withdraw {e : Engine MemoryGraph} (hsound : e.deductions.Sound) (t : Triple) :
    (withdraw t).Ends e fun _ e' => e' = e.withdrawn t := by
  unfold withdraw
  rw [ends_bind]
  apply ends_retractDeduction hsound
  cases hdeduced : e.deductions.contains t with
  | false => simp [ends_pure, Engine.withdrawn, hdeduced]
  | true =>
      simp only [if_true, ends_bind, ends_inBase]
      cases hbase : e.base.contains t with
      | true => simp [ends_pure, Engine.withdrawn, hbase]
      | false => simp [ends_modify, Engine.withdrawn, Engine.queue, hdeduced, hbase]

theorem ends_forgetting {e : Engine MemoryGraph} {on : Bool} {d : DerivationLog}
    {w : Work MemoryGraph Unit} {post : Unit → Engine MemoryGraph → Prop}
    (h : ∀ d, w.Ends { e with derivations := d } post) :
    (if on = true then (set { e with derivations := d } >>= fun _ => w) else w).Ends e post := by
  split
  · rw [ends_bind, ends_set]
    exact h d
  · exact h e.derivations

/-- A conclusion loses one supporter. -/
theorem ends_unsupport {e : Engine MemoryGraph} (hsound : e.deductions.Sound) {a : Activation}
    (c : CompiledRule) (matched : List (Option Triple)) {t : Triple} (ha : a ∈ e.supporters t) :
    (unsupport a c matched t).Ends e fun _ e' =>
      e.Recedes e' ∧ e.Abandons e' ∧ e.Loses e' fun b u => (t == u) = true ∧ b = a := by
  unfold unsupport
  simp only [ends_bind, ends_get]
  cases hfirings : e.support.get? t with
  | none =>
      rw [Engine.supporters, hfirings] at ha
      cases ha
  | some firings =>
      have hmembers : e.supporters t = firings.members := by rw [Engine.supporters, hfirings]
      have hcontains : firings.contains a = true := by
        rw [hmembers] at ha
        exact OrderedSet.contains_of_mem ha
      have herase : ∀ b, b ∈ (firings.erase a).members ↔ b ∈ e.supporters t ∧ b ≠ a := by
        intro b
        rw [hmembers]
        simp [OrderedSet.erase]
      simp only [hcontains, Bool.not_true, Bool.false_eq_true, if_false]
      apply ends_forgetting
      intro d
      cases hempty : (firings.erase a).isEmpty with
      | true =>
          have hlast : ∀ b, b ∈ e.supporters t → b = a := by
            intro b hb
            have hnone := OrderedSet.isEmpty_iff.1 hempty
            by_contra hne
            have hb := (herase b).2 ⟨hb, hne⟩
            rw [hnone] at hb
            cases hb
          have hrel : ∀ u b, b ∈ ({ e with support := e.support.erase t } :
              Engine MemoryGraph).supporters u ↔
              b ∈ e.supporters u ∧ ¬((t == u) = true ∧ b = a) := by
            intro u b
            rw [Engine.supporters_erase]
            split
            · rename_i hsame
              rw [← e.supporters_congr hsame]
              constructor
              · intro h
                cases h
              · exact fun h => absurd ⟨hsame, hlast b h.1⟩ h.2
            · rename_i hdifferent
              exact ⟨fun h => ⟨h, fun hsame => hdifferent hsame.1⟩, And.left⟩
          have hlighter : (e.support.erase t).weight OrderedSet.size ≤
              e.support.weight OrderedSet.size := by
            have hweight := OrderedMap.weight_erase OrderedSet.size hfirings
            omega
          simp only [if_true, ends_bind, ends_modify]
          cases hcommitted : e.committed.contains t with
          | true =>
              simp only [if_true, ends_pure]
              refine ⟨Engine.recedes_lost hsound hrel (fun _ h => h) (Or.inl hcommitted)
                (Nat.add_le_add_left hlighter _), ?_, hrel⟩
              refine .of_deductions_eq rfl fun u hnone => ?_
              change ({ e with support := e.support.erase t } :
                Engine MemoryGraph).supporters u = [] at hnone
              rw [Engine.supporters_erase] at hnone
              split at hnone
              · rename_i hsame
                rw [← e.committed.contains_congr hsame]
                exact Or.inr hcommitted
              · exact Or.inl hnone
          | false =>
              simp only [Bool.false_eq_true, if_false]
              refine (ends_withdraw (e := { e with
                derivations := d, support := e.support.erase t }) hsound t).mono ?_
              rintro _ _ rfl
              have hwithdrawn := Engine.recedes_withdrawn hsound t
              refine ⟨hwithdrawn.trans (Engine.recedes_lost hwithdrawn.sound hrel (fun _ h => h)
                (Or.inr (Or.inr ?_)) ?_), ⟨?_, ?_, ?_⟩, hrel⟩
              · change (e.deductions.minus t).contains t = false
                rw [hsound.contains_minus, BEq.rfl]
                simp
              · exact Nat.add_le_add_left hlighter _
              · intro u hbefore hafter
                change (e.deductions.minus t).contains u = false at hafter
                rw [hsound.contains_minus, hbefore] at hafter
                have hsame : (t == u) = true := by simpa using hafter
                change ({ e with support := e.support.erase t } :
                  Engine MemoryGraph).supporters u = []
                rw [Engine.supporters_erase, if_pos hsame]
              · intro u hafter hnone
                change (e.deductions.minus t).contains u = true at hafter
                rw [hsound.contains_minus, Bool.and_eq_true, Bool.not_eq_true'] at hafter
                change ({ e with support := e.support.erase t } :
                  Engine MemoryGraph).supporters u = [] at hnone
                rw [Engine.supporters_erase, if_neg (by rw [hafter.2]; exact Bool.false_ne_true)]
                  at hnone
                exact Or.inl hnone
              · intro u hu hbefore
                change (e.deductions.minus t).contains u = true
                rw [hsound.contains_minus, hbefore, Bool.true_and, Bool.not_eq_true']
                cases hsame : t == u with
                | false => rfl
                | true =>
                    rw [← e.committed.contains_congr hsame, hcommitted] at hu
                    cases hu
      | false =>
          have hrel : ∀ u b, b ∈ ({ e with support := e.support.insert t (firings.erase a) } :
              Engine MemoryGraph).supporters u ↔
              b ∈ e.supporters u ∧ ¬((t == u) = true ∧ b = a) := by
            intro u b
            rw [Engine.supporters_insert]
            split
            · rename_i hsame
              rw [herase, e.supporters_congr hsame]
              simp [hsame]
            · rename_i hdifferent
              exact ⟨fun h => ⟨h, fun hsame => hdifferent hsame.1⟩, And.left⟩
          simp only [Bool.false_eq_true, if_false, ends_bind, ends_modify, suspect]
          have hweight := OrderedMap.weight_insert OrderedSet.size (firings.erase a) hfirings
          have hsmaller := OrderedSet.size_erase_lt hcontains
          have hsuspects := OrderedSet.size_insert_le e.suspects t
          refine ⟨Engine.recedes_lost hsound hrel ?_ (Or.inr (Or.inl ?_)) (by omega), ?_, hrel⟩
          · intro u hu
            rw [OrderedSet.contains_insert, hu]
            rfl
          · rw [OrderedSet.contains_insert, BEq.rfl, Bool.or_true]
          · refine .of_deductions_eq rfl fun u hnone => ?_
            change ({ e with support := e.support.insert t (firings.erase a) } :
              Engine MemoryGraph).supporters u = [] at hnone
            rw [Engine.supporters_insert] at hnone
            split at hnone
            · rw [OrderedSet.isEmpty_iff.2 hnone] at hempty
              cases hempty
            · exact Or.inl hnone

/-- A firing is taken back, and its conclusions lose it as a supporter. -/
theorem ends_retract {e : Engine MemoryGraph} (hsound : e.deductions.Sound) {a : Activation}
    {c : CompiledRule} (hc : e.network.rule? a.rule = some c) (triples : List Triple)
    {firing : Firing} (hsupports : ∀ t, firing.Concludes t → a ∈ e.supporters t)
    (hdistinct : ∀ conclusions hidden committed,
      firing = .fired conclusions hidden committed → Distinct conclusions) :
    (retract a triples firing).Ends e fun _ e' =>
      e.Recedes e' ∧ e.Abandons e' ∧ e.Loses e' fun b u => b = a ∧ firing.Concludes u := by
  have hnothing : (∀ u, ¬ firing.Concludes u) →
      e.Recedes e ∧ e.Abandons e ∧ e.Loses e fun b u => b = a ∧ firing.Concludes u := by
    intro hnone
    refine ⟨.refl hsound, .refl, ?_⟩
    intro u b
    exact ⟨fun h => ⟨h, fun hlost => hnone u hlost.2⟩, And.left⟩
  unfold retract
  rw [ends_bind, ends_get]
  cases firing with
  | pending | blocked =>
      apply hnothing
      rintro u ⟨_, _, h, _⟩
      cases h
  | fired conclusions hidden committed =>
      cases committed with
      | true =>
          apply hnothing
          rintro u ⟨_, _, h, _⟩
          cases h
      | false =>
          have hconcludes : ∀ u, (Firing.fired conclusions hidden false).Concludes u ↔
              conclusions.any (· == u) = true := by
            intro u
            constructor
            · rintro ⟨_, _, h, hany⟩
              cases h
              exact hany
            · exact fun h => ⟨conclusions, hidden, rfl, h⟩
          simp only [hc, ends_bind, ends_count, ends_modify]
          have hstart := Engine.recedes_of_reports hsound (hidden.foldl unhide e.hidden)
            { e.stats with retractions := e.stats.retractions + 1 }
          refine (ends_forM (fun rest e' => e.Recedes e' ∧ e.Abandons e' ∧
            ∃ done, conclusions = done ++ rest ∧
              e.Loses e' fun b u => b = a ∧ done.any (· == u) = true) ?_ conclusions ?_).mono ?_
          · rintro t rest e₁ ⟨hrecedes, habandons, done, hsplit, hloses⟩
            have hnew : done.any (· == t) = false := by
              have hdist := hdistinct conclusions hidden false rfl
              rw [hsplit, Distinct, List.pairwise_append] at hdist
              rw [List.any_eq_false]
              intro u hu
              simp [hdist.2.2 u hu t (List.mem_cons_self ..)]
            have hmem : a ∈ e₁.supporters t := by
              rw [hloses]
              refine ⟨hsupports t ((hconcludes t).2 ?_), ?_⟩
              · rw [hsplit]
                simp
              · rintro ⟨_, hdone⟩
                rw [hnew] at hdone
                cases hdone
            refine (ends_unsupport hrecedes.sound c _ hmem).mono ?_
            rintro _ e₂ ⟨hrecedes', habandons', hloses'⟩
            refine ⟨hrecedes.trans hrecedes', habandons.trans habandons' hrecedes hrecedes',
              done ++ [t], by rw [hsplit]; simp, ?_⟩
            intro u b
            rw [hloses' u b, hloses u b]
            simp only [List.any_append, Bool.or_eq_true, List.any_cons, List.any_nil, Bool.or_false]
            constructor
            · rintro ⟨⟨hb, hnot⟩, hnot'⟩
              refine ⟨hb, ?_⟩
              rintro ⟨rfl, hdone | hlast⟩
              · exact hnot ⟨rfl, hdone⟩
              · exact hnot' ⟨hlast, rfl⟩
            · rintro ⟨hb, hnot⟩
              exact ⟨⟨hb, fun h => hnot ⟨h.1, Or.inl h.2⟩⟩, fun h => hnot ⟨h.2, Or.inr h.1⟩⟩
          · refine ⟨hstart, .of_deductions_eq rfl fun _ => Or.inl, [], rfl, ?_⟩
            intro u b
            constructor
            · exact fun h => ⟨h, fun hlost => Bool.false_ne_true hlost.2⟩
            · exact And.left
          · rintro _ e' ⟨hrecedes, habandons, done, hsplit, hloses⟩
            refine ⟨hrecedes, habandons, ?_⟩
            intro u b
            rw [List.append_nil] at hsplit
            rw [hloses u b, ← hsplit]
            exact and_congr_right fun _ => not_congr (and_congr_right fun _ => (hconcludes u).symm)

end Work

namespace Engine

/-- A conclusion is held up by the activations that have drawn it. -/
def Backed {γ : Type} (e : Engine γ) : Prop := ∀ t a, a ∈ e.supporters t ↔ e.Fires a t

/-- The tokens of a rule that hold a triple are gone, their firings not yet taken back. -/
def cleared (e : Engine MemoryGraph) (rule : Nat) (t : Triple) : Engine MemoryGraph :=
  e.setMemory rule ((e.memory rule).removeHolding t).2

theorem Stocked.cleared {e : Engine MemoryGraph} (he : e.Stocked) {rule : Nat} {c : CompiledRule}
    (hc : e.network.rule? rule = some c) (t : Triple) : (e.cleared rule t).Stocked := by
  have hm := he.2 rule
  exact he.setMemory (he.lt_length hc) (Nat.le_refl _)
    (hm.cleared (hm.cleared_removeHolding t))

/-- What is in order even where the base has changed without notice. -/
structure Orderly (e : Engine MemoryGraph) : Prop where
  wired : e.network.Wired
  base : e.base.Sound
  deductions : e.deductions.Sound
  stocked : e.Stocked
  backed : e.Backed

namespace Orderly

variable {e e' : Engine MemoryGraph}

theorem sound (h : e.Orderly) : e.view.Sound := ⟨h.base, h.deductions⟩

/-- What is kept for reports and what waits does not matter. -/
theorem of_agree (h : e.Orderly)
    (hagree : e' = { e with
      events := e'.events
      agenda := e'.agenda
      committed := e'.committed
      suspects := e'.suspects
      derivations := e'.derivations
      hidden := e'.hidden
      logging := e'.logging
      traceFirings := e'.traceFirings
      maxRechecks := e'.maxRechecks
      state := e'.state
      stats := e'.stats
      world := e'.world }) : e'.Orderly := by
  rw [hagree]
  exact ⟨h.wired, h.base, h.deductions, h.stocked, h.backed⟩

theorem recedes (h : e.Orderly) (hr : e.Recedes e') (hbacked : e'.Backed) : e'.Orderly := by
  refine ⟨?_, ?_, hr.sound, ?_, hbacked⟩
  · rw [hr.frame]
    exact h.wired
  · rw [hr.frame]
    exact h.base
  · rw [hr.frame]
    exact h.stocked

end Orderly

theorem memory_cleared {e : Engine MemoryGraph} {rule : Nat} (hrule : rule < e.memories.length)
    (t : Triple) (r : Nat) : (e.cleared rule t).memory r =
      if rule = r then ((e.memory rule).removeHolding t).2 else e.memory r :=
  memory_setMemory _ hrule r

end Engine

namespace Work

/-- The tokens of a rule that hold a triple go, and their firings are taken back. -/
theorem ends_retractTokens {e : Engine MemoryGraph} (hsound : e.deductions.Sound)
    (hstocked : e.Stocked) (hbacked : e.Backed) {rule : Nat} {c : CompiledRule}
    (hc : e.network.rule? rule = some c) (t : Triple) :
    (retractTokens t rule).Ends e fun _ e' =>
      (e.cleared rule t).Recedes e' ∧ (e.cleared rule t).Abandons e' ∧ e'.Backed := by
  have hm := hstocked.2 rule
  have hlt := hstocked.lt_length hc
  have hcleared := hm.cleared_removeHolding t
  set broken := ((e.memory rule).removeHolding t).1
  unfold retractTokens
  simp only [ends_bind, ends_get, ends_set]
  change (broken.forM fun b => retract ⟨rule, b.id⟩ b.triples b.firing).Ends (e.cleared rule t) _
  have hfires : ∀ x ∈ broken, e.firing? ⟨rule, x.id⟩ = some x.firing :=
    fun x hx => ((hcleared.mem_broken x).1 hx).2.1
  refine (ends_forM (fun rest e' => (e.cleared rule t).Recedes e' ∧
    (e.cleared rule t).Abandons e' ∧ ∃ done, broken = done ++ rest ∧
      (e.cleared rule t).Loses e' fun b u =>
        ∃ x ∈ done, b = ⟨rule, x.id⟩ ∧ x.firing.Concludes u) ?_ broken ?_).mono ?_
  · rintro x rest e₁ ⟨hrecedes, habandons, done, hsplit, hloses⟩
    have hx : x ∈ broken := by rw [hsplit]; simp
    have hnew : ∀ y ∈ done, y.id ≠ x.id := by
      have hnodup := hcleared.nodup_broken
      rw [hsplit, List.map_append, List.nodup_append] at hnodup
      intro y hy
      exact hnodup.2.2 y.id (List.mem_map_of_mem hy) x.id
        (List.mem_map_of_mem (List.mem_cons_self ..))
    have hsupports : ∀ u, x.firing.Concludes u → (⟨rule, x.id⟩ : Activation) ∈ e₁.supporters u := by
      intro u hu
      rw [hloses]
      refine ⟨(hbacked u _).2 ⟨x.firing, hfires x hx, hu⟩, ?_⟩
      rintro ⟨y, hy, hsame, _⟩
      exact hnew y hy (congrArg Activation.token hsame).symm
    have hrule : e₁.network.rule? rule = some c := by
      rw [hrecedes.network_eq]
      exact hc
    refine (ends_retract (a := ⟨rule, x.id⟩) hrecedes.sound hrule x.triples hsupports ?_).mono ?_
    · intro conclusions hidden committed hfired
      refine (hm.fired c hc x.id conclusions hidden committed ?_).1
      rw [← hfired]
      exact hfires x hx
    · rintro _ e₂ ⟨hrecedes', habandons', hloses'⟩
      refine ⟨hrecedes.trans hrecedes', habandons.trans habandons' hrecedes hrecedes',
        done ++ [x], by rw [hsplit]; simp, ?_⟩
      intro u b
      rw [hloses' u b, hloses u b]
      constructor
      · rintro ⟨⟨hb, hnot⟩, hnot'⟩
        refine ⟨hb, ?_⟩
        rintro ⟨y, hy, hsame, hconcludes⟩
        rcases List.mem_append.1 hy with hy | hy
        · exact hnot ⟨y, hy, hsame, hconcludes⟩
        · rw [List.mem_singleton.1 hy] at hsame hconcludes
          exact hnot' ⟨hsame, hconcludes⟩
      · rintro ⟨hb, hnot⟩
        refine ⟨⟨hb, ?_⟩, ?_⟩
        · rintro ⟨y, hy, hrest⟩
          exact hnot ⟨y, List.mem_append_left _ hy, hrest⟩
        · exact fun hlost => hnot ⟨x, List.mem_append_right _ (List.mem_singleton.2 rfl), hlost⟩
  · refine ⟨.refl hsound, .refl, [], rfl, ?_⟩
    intro u b
    exact ⟨fun h => ⟨h, fun ⟨_, hy, _⟩ => nomatch hy⟩, And.left⟩
  · rintro _ e' ⟨hrecedes, habandons, done, hsplit, hloses⟩
    refine ⟨hrecedes, habandons, ?_⟩
    rw [List.append_nil] at hsplit
    intro u a
    rw [hloses u a]
    change a ∈ e.supporters u ∧ _ ↔ _
    rw [hbacked u a]
    have hfiring : e'.firing? a = (e.cleared rule t).firing? a := by
      rw [Engine.firing?, hrecedes.memory_eq]
      rfl
    have hafter := Engine.firing?_setMemory ((e.memory rule).removeHolding t).2 hlt a
    constructor
    · rintro ⟨⟨firing, ha, hconcludes⟩, hnot⟩
      refine ⟨firing, ?_, hconcludes⟩
      rw [hfiring]
      refine hafter.trans ?_
      split
      · rename_i hr
        have hstays : ¬ (e.memory rule).Holds a.token t := by
          intro held
          apply hnot
          refine ⟨⟨a.token, (e.memory rule).triples a.token, firing⟩, ?_, ?_, hconcludes⟩
          · rw [← hsplit]
            refine (hcleared.mem_broken _).2 ⟨held, ?_, rfl⟩
            rw [← ha, Engine.firing?, ← hr]
          · rw [hr]
        rw [hcleared.firing_eq a.token hstays, ← ha, Engine.firing?, ← hr]
      · exact ha
    · rintro ⟨firing, ha, hconcludes⟩
      rw [hfiring] at ha
      have ha := hafter.symm.trans ha
      split at ha
      · rename_i hr
        obtain ⟨hnot, hold⟩ := hcleared.not_holds_of_firing ha
        refine ⟨⟨firing, by rw [← hold, Engine.firing?, ← hr], hconcludes⟩, ?_⟩
        rintro ⟨x, hx, hsame, _⟩
        rw [← hsplit] at hx
        apply hnot
        rw [hsame]
        exact ((hcleared.mem_broken x).1 hx).1
      · rename_i hr
        refine ⟨⟨firing, ha, hconcludes⟩, ?_⟩
        rintro ⟨x, _, hsame, _⟩
        exact hr (by rw [hsame])

end Work

end Entailment
