import Entailment.Proofs.Forward.Grounding

/-!
# What a firing adds and removes

The conclusions of a firing become deductions, held up by the firing or committed, and
what its head asked to remove leaves base and deductions.  Adding a conclusion keeps
every triple accounted for, because the firing has matched triples in view, which are
accounted for without the conclusion.
-/

namespace Entailment

namespace Engine

variable {e e' e'' : Engine MemoryGraph} {a : Activation} {destructive : Bool}
  {conclusions : List Triple}

/-- The conclusions have become deductions. -/
structure Adopts (e e' : Engine MemoryGraph) (a : Activation) (destructive : Bool)
    (conclusions : List Triple) : Prop where
  frame : e' = { e with
    events := e'.events
    support := e'.support
    committed := e'.committed
    deductions := e'.deductions
    derivations := e'.derivations }
  sound : e'.deductions.Sound
  deductions_eq : ∀ u, e'.deductions.contains u =
    (e.deductions.contains u || conclusions.any (· == u))
  supporters_iff : ∀ u b, b ∈ e'.supporters u ↔ b ∈ e.supporters u ∨
    destructive = false ∧ b = a ∧ conclusions.any (· == u) = true
  committed_eq : ∀ u, e'.committed.contains u =
    (e.committed.contains u || destructive && conclusions.any (· == u))
  announces : ∃ ts : List Triple, e'.events = e.events ++ ts.map .added ∧
    (∀ t ∈ ts, t ∈ conclusions) ∧
    ∀ u, e'.view.sees u = true → e.view.sees u = false → ts.any (· == u) = true
  paid : e'.events.length ≤ e.events.length + conclusions.length

namespace Adopts

theorem refl (hsound : e.deductions.Sound) : e.Adopts e a destructive [] where
  frame := rfl
  sound := hsound
  deductions_eq u := (Bool.or_false _).symm
  supporters_iff u b := by simp
  committed_eq u := by simp
  announces := ⟨[], by simp, (fun t ht => nomatch ht), fun u h h' => by rw [h] at h'; cases h'⟩
  paid := Nat.le_refl _

theorem base_eq (h : e.Adopts e' a destructive conclusions) : e'.base = e.base := by
  rw [h.frame]

theorem memories_eq (h : e.Adopts e' a destructive conclusions) : e'.memories = e.memories := by
  rw [h.frame]

theorem memory_eq (h : e.Adopts e' a destructive conclusions) (r : Nat) :
    e'.memory r = e.memory r := by
  rw [memory, memory, h.memories_eq]

theorem sees_eq (h : e.Adopts e' a destructive conclusions) (u : Triple) :
    e'.view.sees u = (e.view.sees u || conclusions.any (· == u)) := by
  change (e'.base.contains u || e'.deductions.contains u) =
    ((e.base.contains u || e.deductions.contains u) || conclusions.any (· == u))
  rw [h.base_eq, h.deductions_eq, Bool.or_assoc]

theorem trans {more : List Triple} (h : e.Adopts e' a destructive conclusions)
    (k : e'.Adopts e'' a destructive more) :
    e.Adopts e'' a destructive (conclusions ++ more) where
  frame := by rw [k.frame, h.frame]
  sound := k.sound
  deductions_eq u := by
    rw [k.deductions_eq, h.deductions_eq, List.any_append, Bool.or_assoc]
  supporters_iff u b := by
    rw [k.supporters_iff, h.supporters_iff, List.any_append, Bool.or_eq_true]
    tauto
  committed_eq u := by
    rw [k.committed_eq, h.committed_eq, List.any_append]
    cases destructive <;> simp [Bool.or_assoc]
  announces := by
    obtain ⟨ts, hevents, hts, hseen⟩ := h.announces
    obtain ⟨us, hevents', hus, hseen'⟩ := k.announces
    refine ⟨ts ++ us, by rw [hevents', hevents]; simp, ?_, ?_⟩
    · intro t ht
      rcases List.mem_append.1 ht with ht | ht
      · exact List.mem_append_left _ (hts t ht)
      · exact List.mem_append_right _ (hus t ht)
    · intro u hafter hbefore
      rw [List.any_append, Bool.or_eq_true]
      cases hmid : e'.view.sees u with
      | true => exact Or.inl (hseen u hmid hbefore)
      | false => exact Or.inr (hseen' u hafter hmid)
  paid := by
    have hfirst := h.paid
    have hsecond := k.paid
    rw [List.length_append]
    omega

end Adopts

theorem supporters_alter {γ : Type} (e : Engine γ) (t u : Triple) (a b : Activation) :
    b ∈ ({ e with support := e.support.alter t (·.insert a) } : Engine γ).supporters u ↔
      b ∈ e.supporters u ∨ b = a ∧ (t == u) = true := by
  simp only [supporters, OrderedMap.get?_alter]
  by_cases hsame : (t == u) = true
  · rw [if_pos hsame]
    simp only [hsame, and_true]
    cases hget : e.support.get? u with
    | none =>
        simp only [Option.getD_none, OrderedSet.members_insert, OrderedSet.contains_default,
          Bool.false_eq_true, if_false]
        have hempty : (default : OrderedSet Activation).members = [] := rfl
        simp [hempty]
    | some firings =>
        simp only [Option.getD_some, OrderedSet.members_insert]
        split
        · rename_i hold
          have hmem : a ∈ firings.members := by
            obtain ⟨x, hx, heq⟩ := OrderedSet.contains_iff.1 hold
            have heq : x = a := by simpa using heq
            exact heq ▸ hx
          constructor
          · exact Or.inl
          · rintro (hb | rfl)
            · exact hb
            · exact hmem
        · simp
  · rw [if_neg hsame]
    simp [hsame]

end Engine

namespace Work

variable {e : Engine MemoryGraph} {a : Activation} {c : CompiledRule}

/-- The engine once a conclusion is credited to the activation that drew it. -/
def credited (e : Engine MemoryGraph) (a : Activation) (destructive : Bool)
    (derivations : DerivationLog) (t : Triple) : Engine MemoryGraph :=
  if destructive = true then { e with derivations, committed := e.committed.insert t }
  else { e with derivations, support := e.support.alter t (·.insert a) }

theorem ends_credit (matched : List (Option Triple)) (t : Triple) :
    (credit a c matched t).Ends e fun _ e' =>
      ∃ derivations, e' = credited e a c.destructive derivations t := by
  unfold credit
  rw [ends_modify]
  unfold credited
  by_cases hlogging : e.logging = true
  · simp only [if_pos hlogging]
    exact ⟨_, rfl⟩
  · simp only [if_neg hlogging]
    exact ⟨e.derivations, rfl⟩

/-- A ground triple becomes a deduction, and is announced if it comes into view. -/
theorem ends_assert (hsound : e.deductions.Sound) {t : Triple} (ht : t.isGround = true) :
    (assert t).Ends e fun _ e' => e' = { e with
      deductions := e.deductions.plus t
      events := if e.view.sees t = true then e.events else e.events ++ [.added t] } := by
  unfold assert
  simp only [ends_bind, ends_get, hsound.add_eq ht, ends_access, ends_set]
  have hsees : e.view.sees t = (e.base.contains t || e.deductions.contains t) := rfl
  cases hdeduced : e.deductions.contains t with
  | true => simp [ends_pure, hsees, hdeduced]
  | false =>
      simp only [Bool.not_false, if_true, ends_bind, ends_inBase]
      cases hbase : e.base.contains t with
      | true => simp [ends_pure, hsees, hbase]
      | false => simp [ends_modify, Engine.queue, hsees, hbase, hdeduced]

theorem adopts_one (hsound : e.deductions.Sound) (destructive : Bool)
    (derivations : DerivationLog) {t : Triple} (ht : t.isGround = true) :
    e.Adopts { credited e a destructive derivations t with
      deductions := e.deductions.plus t
      events := if e.view.sees t = true then e.events else e.events ++ [.added t] }
      a destructive [t] where
  frame := by cases destructive <;> rfl
  sound := hsound.plus ht
  deductions_eq u := by
    change (e.deductions.plus t).contains u = _
    rw [hsound.contains_plus ht]
    simp
  supporters_iff u b := by
    cases destructive with
    | true =>
        change b ∈ e.supporters u ↔ _
        simp
    | false =>
        change b ∈ ({ e with support := e.support.alter t (·.insert a) } :
          Engine MemoryGraph).supporters u ↔ _
        rw [Engine.supporters_alter]
        simp
  committed_eq u := by
    cases destructive with
    | true =>
        change (e.committed.insert t).contains u = _
        rw [OrderedSet.contains_insert]
        simp
    | false =>
        change e.committed.contains u = _
        simp
  announces := by
    have hafter : ∀ u, (credited e a destructive derivations t).base.contains u =
        e.base.contains u := by
      intro u
      cases destructive <;> rfl
    have hnew : ∀ u, ((credited e a destructive derivations t).base.contains u ||
        (e.deductions.plus t).contains u) = true → e.view.sees u = false → (t == u) = true := by
      intro u hu hbefore
      change (e.base.contains u || e.deductions.contains u) = false at hbefore
      rw [Bool.or_eq_false_iff] at hbefore
      rw [hafter, hsound.contains_plus ht, hbefore.1, hbefore.2] at hu
      simpa using hu
    cases hseen : e.view.sees t with
    | true =>
        refine ⟨[], ?_, (fun u hu => nomatch hu), ?_⟩
        · simp
        · intro u hu hbefore
          rw [← e.view.sees_congr (hnew u hu hbefore), hseen] at hbefore
          cases hbefore
    | false =>
        refine ⟨[t], ?_, (fun u hu => hu), ?_⟩
        · simp
        · intro u hu hbefore
          simpa using hnew u hu hbefore
  paid := by
    split
    · exact Nat.le_succ _
    · rw [List.length_append]
      exact Nat.le_refl _

/-- The conclusions of a firing are adopted one after another. -/
theorem ends_adopt (hsound : e.deductions.Sound) (matched : List (Option Triple))
    {conclusions : List Triple} (hground : ∀ t ∈ conclusions, t.isGround = true) :
    (conclusions.forM fun t => do
      credit a c matched t
      assert t).Ends e fun _ e' => e.Adopts e' a c.destructive conclusions := by
  refine (ends_forM (fun rest e' => (∀ t ∈ rest, t.isGround = true) ∧
    ∃ done, conclusions = done ++ rest ∧ e.Adopts e' a c.destructive done) ?_ conclusions
    ⟨hground, [], rfl, .refl hsound⟩).mono ?_
  · rintro t rest e₁ ⟨hrest, done, hsplit, hadopts⟩
    refine (ends_credit matched t).bind ?_
    rintro _ e₂ ⟨derivations, rfl⟩
    have hcredited : (credited e₁ a c.destructive derivations t).deductions = e₁.deductions ∧
        (credited e₁ a c.destructive derivations t).view = e₁.view ∧
        (credited e₁ a c.destructive derivations t).events = e₁.events := by
      unfold credited
      split <;> exact ⟨rfl, rfl, rfl⟩
    have hsound₂ : (credited e₁ a c.destructive derivations t).deductions.Sound := by
      rw [hcredited.1]
      exact hadopts.sound
    refine (ends_assert hsound₂ (hrest t (List.mem_cons_self ..))).mono ?_
    rintro _ e₃ rfl
    refine ⟨fun u hu => hrest u (List.mem_cons_of_mem _ hu), done ++ [t], by rw [hsplit]; simp, ?_⟩
    have hone := adopts_one (a := a) hadopts.sound c.destructive derivations
      (hrest t (List.mem_cons_self ..))
    rw [hcredited.1, hcredited.2.1, hcredited.2.2]
    exact hadopts.trans hone
  · rintro _ e' ⟨_, done, hsplit, hadopts⟩
    rw [hsplit, List.append_nil]
    exact hadopts

end Work

/-! ## Accounting for what is added -/

namespace Engine

variable {e e' : Engine MemoryGraph} {a : Activation} {destructive : Bool}
  {conclusions : List Triple} {gone : Nat → Triple → Prop}

theorem mem_matchedBy_iff (he : e.Stocked) {m : Triple} (h : m ∈ e.matchedBy a) :
    ∃ id token, (e.memory a.rule).node? id = some token ∧ token.triple = m := by
  cases hid : (e.memory a.rule).node? a.token with
  | none =>
      rw [matchedBy, TokenMemory.triples_of_none hid] at h
      cases h
  | some token =>
      obtain ⟨ts, hts⟩ := (he.2 a.rule).rooted.exists_spells hid
      rw [matchedBy, hts.triples_eq] at h
      clear hid
      generalize some a.token = place at hts
      induction hts with
      | root => cases h
      | @child id token ts hid _ ih =>
          rcases List.mem_append.1 h with h | h
          · exact ih h
          · exact ⟨id, token, hid, (List.mem_singleton.1 h).symm⟩

/-- While no deletion waits, an activation has matched triples in view. -/
theorem Consistent.sees_of_mem_matchedBy (h : e.Consistent nothingGone)
    (hquiet : ∀ t, ¬ e.Announced t) {m : Triple} (hm : m ∈ e.matchedBy a) :
    e.view.sees m = true := by
  obtain ⟨id, token, hid, rfl⟩ := mem_matchedBy_iff h.stocked hm
  rcases h.covered a.rule id token hid with hseen | hannounced | hgone
  · exact hseen
  · exact absurd hannounced (hquiet _)
  · exact hgone.elim

/-- The triple is in the base, committed or a suspect. -/
def Anchored (e : Engine MemoryGraph) (t : Triple) : Prop :=
  e.base.contains t = true ∨ e.committed.contains t = true ∨ e.suspects.contains t = true

/-- While no deletion waits, what is in view rests on what is in view. -/
theorem Consistent.anchored (h : e.Consistent nothingGone) (hquiet : ∀ t, ¬ e.Announced t)
    {t : Triple} (ht : e.view.sees t = true) : Rests e.Anchored e.Props t := by
  have haccounted := h.accounted t
  unfold Accounted at haccounted
  induction haccounted with
  | @given t hexcused =>
      rcases hexcused with hbase | hcommitted | hsuspect | habsent
      · exact .given (Or.inl hbase)
      · exact .given (Or.inr (Or.inl hcommitted))
      · exact .given (Or.inr (Or.inr hsuspect))
      · refine .given (Or.inl ?_)
        change (e.base.contains t || e.deductions.contains t) = true at ht
        rwa [habsent, Bool.or_false] at ht
  | step hstep _ ih =>
      refine .step hstep fun m hm => ih m hm ?_
      obtain ⟨b, _, rfl⟩ := hstep
      exact h.sees_of_mem_matchedBy hquiet hm

/-- Adopting conclusions keeps the engine consistent, if no deletion waits. -/
theorem Adopts.consistent (hadopts : e.Adopts e' a destructive conclusions)
    (h : e.Consistent nothingGone) (hquiet : ∀ t, ¬ e.Announced t) :
    e'.Consistent nothingGone := by
  have hmatched : ∀ b, e'.matchedBy b = e.matchedBy b := by
    intro b
    rw [matchedBy, matchedBy, hadopts.memory_eq]
  have hcommitted : ∀ u, e.committed.contains u = true → e'.committed.contains u = true := by
    intro u hu
    rw [hadopts.committed_eq, hu]
    rfl
  have hsuspects : e'.suspects = e.suspects := by rw [hadopts.frame]
  have hstep : ∀ ts u, e.Props ts u → e'.Props ts u := by
    rintro ts u ⟨b, hb, rfl⟩
    exact ⟨b, (hadopts.supporters_iff u b).2 (Or.inl hb), hmatched b⟩
  have hvisible : ∀ u, e.view.sees u = true → e'.Accounted u := by
    intro u hu
    refine (h.anchored hquiet hu).transfer ?_ fun ts v hv => Or.inr ⟨ts, hstep ts v hv, fun m hm => hm⟩
    rintro v (hbase | hcommittedV | hsuspect)
    · refine .given (Or.inl ?_)
      rw [hadopts.base_eq]
      exact hbase
    · exact .given (Or.inr (Or.inl (hcommitted v hcommittedV)))
    · refine .given (Or.inr (Or.inr (Or.inl ?_)))
      rw [hsuspects]
      exact hsuspect
  have hadopted : ∀ u, conclusions.any (· == u) = true → e'.Accounted u := by
    intro u hu
    cases destructive with
    | true =>
        refine .given (Or.inr (Or.inl ?_))
        rw [hadopts.committed_eq, hu]
        simp
    | false =>
        refine .step ⟨a, (hadopts.supporters_iff u a).2 (Or.inr ⟨rfl, rfl, hu⟩), rfl⟩ ?_
        intro m hm
        rw [hmatched] at hm
        exact hvisible m (h.sees_of_mem_matchedBy hquiet hm)
  refine ⟨?_, ?_, ?_, hadopts.sound, ?_, ?_, ?_⟩
  · rw [hadopts.frame]
    exact h.wired
  · rw [hadopts.frame]
    exact h.plain
  · rw [hadopts.frame]
    exact h.base
  · rw [hadopts.frame]
    exact h.stocked
  · intro r id token hid
    rw [hadopts.memory_eq] at hid
    rcases h.covered r id token hid with hseen | hannounced | hgone
    · left
      rw [hadopts.sees_eq, hseen]
      rfl
    · exact absurd hannounced (hquiet _)
    · exact hgone.elim
  · intro u
    cases hu : conclusions.any (· == u) with
    | true => exact hadopted u hu
    | false =>
        cases hseen : e.view.sees u with
        | true => exact hvisible u hseen
        | false =>
            refine .given (Or.inr (Or.inr (Or.inr ?_)))
            change (e.base.contains u || e.deductions.contains u) = false at hseen
            rw [Bool.or_eq_false_iff] at hseen
            rw [hadopts.deductions_eq, hseen.2, hu]
            rfl

end Engine

/-! ## Removal for good -/

namespace Engine

variable {e e' e'' : Engine MemoryGraph} {ts us : List Triple}

/-- The triples are neither in the base nor deduced nor committed any more. -/
structure Purges (e e' : Engine MemoryGraph) (ts : List Triple) : Prop where
  frame : e' = { e with
    base := e'.base
    events := e'.events
    committed := e'.committed
    deductions := e'.deductions }
  soundBase : e'.base.Sound
  sound : e'.deductions.Sound
  base_eq : ∀ u, e'.base.contains u = (e.base.contains u && !ts.any (· == u))
  deductions_eq : ∀ u, e'.deductions.contains u = (e.deductions.contains u && !ts.any (· == u))
  committed_eq : ∀ u, e'.committed.contains u = (e.committed.contains u && !ts.any (· == u))
  announces : ∃ vs : List Triple, e'.events = e.events ++ vs.map .deleted ∧
    ∀ u, e.view.sees u = true → e'.view.sees u = false → vs.any (· == u) = true
  nothing : ts = [] → e' = e

/-- Triples have been taken out of the base, the deductions and the committed conclusions,
and nothing has been said. -/
structure Sheds (e e' : Engine MemoryGraph) (ts : List Triple) : Prop where
  frame : e' = { e with
    base := e'.base
    committed := e'.committed
    deductions := e'.deductions }
  soundBase : e'.base.Sound
  sound : e'.deductions.Sound
  nothing : ts = [] → e' = e

namespace Purges

theorem refl (hbase : e.base.Sound) (hsound : e.deductions.Sound) : e.Purges e [] where
  frame := rfl
  soundBase := hbase
  sound := hsound
  base_eq u := by simp
  deductions_eq u := by simp
  committed_eq u := by simp
  announces := ⟨[], by simp, fun u h h' => by rw [h] at h'; cases h'⟩
  nothing _ := rfl

theorem trans (h : e.Purges e' ts) (k : e'.Purges e'' us) : e.Purges e'' (ts ++ us) where
  frame := by rw [k.frame, h.frame]
  soundBase := k.soundBase
  sound := k.sound
  base_eq u := by rw [k.base_eq, h.base_eq, List.any_append, Bool.not_or, Bool.and_assoc]
  deductions_eq u := by
    rw [k.deductions_eq, h.deductions_eq, List.any_append, Bool.not_or, Bool.and_assoc]
  committed_eq u := by
    rw [k.committed_eq, h.committed_eq, List.any_append, Bool.not_or, Bool.and_assoc]
  announces := by
    obtain ⟨vs, hevents, hvs⟩ := h.announces
    obtain ⟨ws, hevents', hws⟩ := k.announces
    refine ⟨vs ++ ws, by rw [hevents', hevents]; simp, ?_⟩
    intro u hbefore hafter
    rw [List.any_append, Bool.or_eq_true]
    cases hmid : e'.view.sees u with
    | true => exact Or.inr (hws u hmid hafter)
    | false => exact Or.inl (hvs u hbefore hmid)
  nothing hnil := by
    obtain ⟨hts, hus⟩ := List.append_eq_nil_iff.1 hnil
    rw [k.nothing hus, h.nothing hts]

theorem consistent (hpurges : e.Purges e' ts) {gone : Nat → Triple → Prop}
    (h : e.Consistent gone) : e'.Consistent gone := by
  have hmemory : ∀ r, e'.memory r = e.memory r := by
    intro r
    rw [hpurges.frame]
    rfl
  refine ⟨?_, ?_, hpurges.soundBase, hpurges.sound, ?_, ?_, ?_⟩
  · rw [hpurges.frame]
    exact h.wired
  · rw [hpurges.frame]
    exact h.plain
  · rw [hpurges.frame]
    exact h.stocked
  · intro r id token hid
    rw [hmemory] at hid
    obtain ⟨vs, hevents, hvs⟩ := hpurges.announces
    rcases h.covered r id token hid with hseen | ⟨u, hu, hsame⟩ | hgone
    · cases hafter : e'.view.sees token.triple with
      | true => exact Or.inl rfl
      | false =>
          obtain ⟨u, hu, hsame⟩ := List.any_eq_true.1 (hvs _ hseen hafter)
          refine Or.inr (Or.inl ⟨u, ?_, hsame⟩)
          rw [hevents]
          exact List.mem_append_right _ (List.mem_map_of_mem hu)
    · refine Or.inr (Or.inl ⟨u, ?_, hsame⟩)
      rw [hevents]
      exact List.mem_append_left _ hu
    · exact Or.inr (Or.inr hgone)
  · intro t
    refine (h.accounted t).transfer ?_ ?_
    · intro u hexcused
      refine .given ?_
      unfold Excused at hexcused ⊢
      rw [hpurges.base_eq, hpurges.committed_eq, hpurges.deductions_eq]
      have hsuspects : e'.suspects = e.suspects := by rw [hpurges.frame]
      rw [hsuspects]
      cases ts.any (· == u) with
      | true => simp
      | false => simpa using hexcused
    · rintro vs u ⟨b, hb, rfl⟩
      refine Or.inr ⟨_, ⟨b, ?_, rfl⟩, ?_⟩
      · rw [hpurges.frame]
        exact hb
      · intro m hm
        rw [matchedBy, hmemory] at hm
        exact hm

theorem backed (hpurges : e.Purges e' ts) (hbacked : e.Backed) : e'.Backed := by
  rw [hpurges.frame]
  exact hbacked

end Purges

end Engine

namespace Work

variable {e : Engine MemoryGraph}

theorem ends_removeEverywhere (hbase : e.base.Sound) (hsound : e.deductions.Sound) (t : Triple) :
    (removeEverywhere true t).Ends e fun _ e' => e.Purges e' [t] := by
  unfold removeEverywhere
  have hdelete : Graph.delete e.base t = .ok (e.base.contains t, e.base.minus t) :=
    hbase.delete_eq t
  simp only [ends_bind, ends_get, hdelete, ends_access, ends_set]
  apply ends_retractDeduction (e := { e with base := e.base.minus t }) hsound
  simp only [ends_modify, Bool.true_and]
  have hpurges : ∀ events vs, events = e.events ++ vs.map .deleted →
      ((e.base.contains t || e.deductions.contains t) = true → vs = [t]) →
      e.Purges { e with
        base := e.base.minus t
        deductions := e.deductions.minus t
        committed := e.committed.erase t
        events } [t] := by
    intro events vs hevents hannounced
    refine ⟨rfl, hbase.minus t, hsound.minus t, ?_, ?_, ?_, ⟨vs, hevents, ?_⟩, fun h => nomatch h⟩
    · intro u
      rw [hbase.contains_minus]
      simp
    · intro u
      rw [hsound.contains_minus]
      simp
    · intro u
      rw [OrderedSet.contains_erase]
      simp
    · intro u hbefore hafter
      change (e.base.contains u || e.deductions.contains u) = true at hbefore
      change ((e.base.minus t).contains u || (e.deductions.minus t).contains u) = false at hafter
      rw [hbase.contains_minus, hsound.contains_minus, ← Bool.and_or_distrib_right, hbefore] at hafter
      have hsame : (t == u) = true := by simpa using hafter
      rw [← e.base.contains_congr hsame, ← e.deductions.contains_congr hsame] at hbefore
      rw [hannounced hbefore]
      simp [hsame]
  cases hheld : e.base.contains t || e.deductions.contains t with
  | true =>
      simp only [if_true, ends_modify]
      exact hpurges _ [t] rfl fun _ => rfl
  | false =>
      simp only [Bool.false_eq_true, if_false, ends_pure]
      refine hpurges _ [] (by simp) fun h => ?_
      rw [hheld] at h
      cases h

/-- Triples that are dropped leave without notice. -/
theorem ends_dropAll (hbase : e.base.Sound) (hsound : e.deductions.Sound) (ts : List Triple) :
    (ts.forM (removeEverywhere false)).Ends e fun _ e' => e.Sheds e' ts := by
  refine (ends_forM (fun rest e' => ∃ done, ts = done ++ rest ∧ e.Sheds e' done) ?_ ts
    ⟨[], rfl, rfl, hbase, hsound, fun _ => rfl⟩).mono ?_
  · rintro t rest e₁ ⟨done, hsplit, hsheds⟩
    unfold removeEverywhere
    have hdelete : Graph.delete e₁.base t = .ok (e₁.base.contains t, e₁.base.minus t) :=
      hsheds.soundBase.delete_eq t
    simp only [ends_bind, ends_get, hdelete, ends_access, ends_set]
    apply ends_retractDeduction (e := { e₁ with base := e₁.base.minus t }) hsheds.sound
    simp only [ends_modify, Bool.false_and, Bool.false_eq_true, if_false, ends_pure]
    refine ⟨done ++ [t], by rw [hsplit]; simp, ?_, hsheds.soundBase.minus t,
      hsheds.sound.minus t, fun hnil => absurd hnil (by simp)⟩
    rw [hsheds.frame]
  · rintro _ e' ⟨done, hsplit, hsheds⟩
    rw [hsplit, List.append_nil]
    exact hsheds

theorem ends_removeAll (hbase : e.base.Sound) (hsound : e.deductions.Sound) (ts : List Triple) :
    (ts.forM (removeEverywhere true)).Ends e fun _ e' => e.Purges e' ts := by
  refine (ends_forM (fun rest e' =>
    ∃ done, ts = done ++ rest ∧ e.Purges e' done) ?_ ts ⟨[], rfl, .refl hbase hsound⟩).mono ?_
  · rintro t rest e₁ ⟨done, hsplit, hpurges⟩
    refine (ends_removeEverywhere hpurges.soundBase hpurges.sound t).mono ?_
    rintro _ e₂ hpurges'
    exact ⟨done ++ [t], by rw [hsplit]; simp, hpurges.trans hpurges'⟩
  · rintro _ e' ⟨done, hsplit, hpurges⟩
    rw [hsplit, List.append_nil]
    exact hpurges

end Work

end Entailment
