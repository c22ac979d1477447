import Entailment.Proofs.Forward.Run

/-!
# Requests

Each operation starts with a request, which changes base or deductions and queues what
is to be followed up.  A request leaves the engine steady, or it is refused and leaves
it as it was.
-/

namespace Entailment

namespace Engine

variable {e e' : Engine MemoryGraph} {gone : Nat → Triple → Prop}

/-- Base and deductions may change where what leaves the view is announced and what
needed no firing to be where it is needs none now. -/
theorem Consistent.shift (h : e.Consistent gone)
    (hframe : e' = { e with
      base := e'.base
      deductions := e'.deductions
      committed := e'.committed
      suspects := e'.suspects
      events := e'.events })
    (hbase : e'.base.Sound) (hsound : e'.deductions.Sound)
    (hexcused : ∀ u, e.Excused u → e'.Excused u)
    (hseen : ∀ u, e.view.sees u = true → e'.view.sees u = true ∨ e'.Announced u)
    (hevents : ∀ event ∈ e.events, event ∈ e'.events) : e'.Consistent gone := by
  have hmemory : ∀ r, e'.memory r = e.memory r := by
    intro r
    rw [hframe]
    rfl
  refine ⟨?_, ?_, hbase, hsound, ?_, ?_, ?_⟩
  · rw [hframe]
    exact h.wired
  · rw [hframe]
    exact h.plain
  · rw [hframe]
    exact h.stocked
  · intro r id token hid
    rw [hmemory] at hid
    rcases h.covered r id token hid with hin | ⟨u, hu, hsame⟩ | hgone
    · rcases hseen _ hin with hin | hannounced
      · exact Or.inl hin
      · exact Or.inr (Or.inl hannounced)
    · exact Or.inr (Or.inl ⟨u, hevents _ hu, hsame⟩)
    · exact Or.inr (Or.inr hgone)
  · intro t
    refine (h.accounted t).transfer (fun u hu => .given (hexcused u hu)) ?_
    rintro ts u ⟨a, ha, rfl⟩
    refine Or.inr ⟨_, ⟨a, ?_, rfl⟩, ?_⟩
    · rw [hframe]
      exact ha
    · intro m hm
      rw [matchedBy, hmemory] at hm
      exact hm

/-- The same for all that every step keeps. -/
theorem Steady.shift (h : e.Steady)
    (hframe : e' = { e with
      base := e'.base
      deductions := e'.deductions
      committed := e'.committed
      suspects := e'.suspects
      events := e'.events })
    (hbase : e'.base.Sound) (hsound : e'.deductions.Sound)
    (hexcused : ∀ u, e.Excused u → e'.Excused u)
    (hseen : ∀ u, e.view.sees u = true → e'.view.sees u = true ∨ e'.Announced u)
    (hevents : ∀ event ∈ e.events, event ∈ e'.events) : e'.Steady where
  consistent := h.consistent.shift hframe hbase hsound hexcused hseen hevents
  backed := by
    rw [hframe]
    exact h.backed
  tame := by
    rw [hframe]
    exact h.tame

/-! ## Starting over -/

/-- All has been forgotten; the base waits as news, and so does the one activation of
each rule without patterns. -/
structure Restarts (e e' : Engine MemoryGraph) : Prop where
  frame : e' = { e.reset with
    memories := e'.memories
    nextToken := e'.nextToken
    events := e'.events
    agenda := e'.agenda }
  stocked : e'.Stocked
  nodes : ∀ r id, (e'.memory r).node? id = none
  waiting : ∀ a firing, e'.firing? a = some firing → firing = .pending ∧ a ∈ e'.agenda
  unconditional : ∀ r c, e'.network.rule? r = some c → c.patterns = [] →
    ∃ id, ∀ j, (∃ firing, e'.firing? ⟨r, j⟩ = some firing) ↔ j = id
  news : ∀ event ∈ e'.events, ∃ t, event = .added t
  announces : ∀ t, e.base.contains t = true → ∃ u, .added u ∈ e'.events ∧ (u == t) = true

namespace Restarts

theorem network_eq (h : e.Restarts e') : e'.network = e.network := by
  rw [h.frame]
  rfl

theorem base_eq (h : e.Restarts e') : e'.base = e.base := by
  rw [h.frame]
  rfl

theorem deductions_eq (h : e.Restarts e') : e'.deductions = .empty := by
  rw [h.frame]
  rfl

theorem supporters_eq (h : e.Restarts e') (t : Triple) : e'.supporters t = [] := by
  rw [h.frame]
  rfl

/-- No one has concluded anything yet. -/
theorem backed (h : e.Restarts e') : e'.Backed := by
  intro t a
  rw [h.supporters_eq]
  constructor
  · intro ha
    cases ha
  · rintro ⟨firing, hfiring, hconcludes⟩
    obtain ⟨rfl, _⟩ := h.waiting a firing hfiring
    exact absurd hconcludes (not_concludes_pending t)

theorem steady (h : e.Restarts e') (hwired : e.network.Wired) (hplain : e.network.Plain)
    (htame : e.network.Tame) (hbase : e.base.Sound) : e'.Steady where
  consistent := by
    refine ⟨?_, ?_, ?_, ?_, h.stocked, ?_, ?_⟩
    · rw [h.network_eq]
      exact hwired
    · rw [h.network_eq]
      exact hplain
    · rw [h.base_eq]
      exact hbase
    · rw [h.deductions_eq]
      exact MemoryGraph.sound_empty
    · intro r id token hid
      rw [h.nodes] at hid
      cases hid
    · intro t
      refine .given (Or.inr (Or.inr (Or.inr ?_)))
      rw [h.deductions_eq]
      exact MemoryGraph.contains_empty t
  backed := h.backed
  tame := by
    rw [h.network_eq]
    exact htame

end Restarts

end Engine

namespace Work

variable {e : Engine MemoryGraph}

theorem ends_scheduleOnce (he : e.Stocked) {rule : Nat} {c : CompiledRule}
    (hc : e.network.rule? rule = some c) (hpatterns : c.patterns = [])
    (hnodes : ∀ r id, (e.memory r).node? id = none) :
    (scheduleOnce rule).Ends e fun _ e' =>
      e' = { e with
        memories := e'.memories
        nextToken := e'.nextToken
        agenda := e.agenda ++ [⟨rule, e.nextToken⟩] } ∧
      e'.Stocked ∧ (∀ r id, (e'.memory r).node? id = none) ∧
      ∀ a, e'.firing? a =
        if (⟨rule, e.nextToken⟩ : Activation) = a then some .pending else e.firing? a := by
  have hlt := he.lt_length hc
  unfold scheduleOnce
  rw [ends_modify]
  have hcompletes : TokenMemory.Completes c ((e.memory rule).triples e.nextToken) := by
    rw [TokenMemory.triples_of_none (hnodes rule e.nextToken)]
    exact ⟨by rw [CompiledRule.levels, hpatterns]; rfl, _, .none⟩
  have hstock : ((e.memory rule).setFiring e.nextToken .pending).Stock e.network rule _ :=
    ((he.2 rule).weaken (Nat.le_succ e.nextToken)).setFiring hc (Nat.lt_succ_self _) hcompletes
      fun _ _ _ h => by cases h
  have hstocked := he.setMemory hlt (Nat.le_succ e.nextToken) hstock
  refine ⟨rfl, hstocked, ?_, ?_⟩
  · intro r id
    exact (Engine.node?_setFiring (a := ⟨rule, e.nextToken⟩) hlt .pending r id).trans (hnodes r id)
  · intro a
    exact Engine.firing?_setFiring (a := ⟨rule, e.nextToken⟩) hlt .pending a

theorem memory_reset {γ : Type} (e : Engine γ) (r : Nat) : e.reset.memory r = .empty := by
  change ((e.network.rules.map fun _ => TokenMemory.empty)[r]?).getD .empty = .empty
  rw [List.getElem?_map]
  cases e.network.rules[r]? <;> rfl

theorem stocked_reset (e : Engine MemoryGraph) : e.reset.Stocked := by
  refine ⟨List.length_map _, fun r => ?_⟩
  rw [memory_reset]
  exact TokenMemory.stock_empty _ _ _

theorem ends_restart (hbase : e.base.Sound) : restart.Ends e fun _ e' => e.Restarts e' := by
  unfold restart
  simp only [ends_bind, ends_modify, ends_get]
  have hfind : Graph.find e.reset.base .any = .ok e.base.triples := rfl
  rw [hfind, ends_access, ends_set]
  set e₀ : Engine MemoryGraph := { e.reset with events := e.base.triples.map .added } with he₀
  have hrules : ∀ x : CompiledRule × Nat,
      x ∈ e₀.network.rules.zipIdx.filter (fun x => x.1.patterns.isEmpty) ↔
        e₀.network.rule? x.2 = some x.1 ∧ x.1.patterns = [] := by
    rintro ⟨c, rule⟩
    rw [List.mem_filter, List.mk_mem_zipIdx_iff_getElem?, List.isEmpty_iff]
    rfl
  refine (ends_forM (fun rest e' =>
    (∀ x ∈ rest, e₀.network.rule? x.2 = some x.1 ∧ x.1.patterns = []) ∧
    e' = { e₀ with
      memories := e'.memories
      nextToken := e'.nextToken
      agenda := e'.agenda } ∧
    e'.Stocked ∧ (∀ r id, (e'.memory r).node? id = none) ∧
    (∀ a firing, e'.firing? a = some firing → firing = .pending ∧ a ∈ e'.agenda) ∧
    rest.Pairwise (fun x y => x.2 ≠ y.2) ∧
    ∀ r c, e₀.network.rule? r = some c → c.patterns = [] →
      ((c, r) ∈ rest ∧ ∀ id, e'.firing? ⟨r, id⟩ = none) ∨
      ((∀ x ∈ rest, x.2 ≠ r) ∧
        ∃ id, ∀ j, (∃ firing, e'.firing? ⟨r, j⟩ = some firing) ↔ j = id)) ?_ _ ?_).mono ?_
  · rintro ⟨c, rule⟩ rest e₁ ⟨hrest, hframe, hstocked, hnodes, hwaiting, hapart, hdone⟩
    rw [List.pairwise_cons] at hapart
    obtain ⟨hc, hpatterns⟩ := hrest (c, rule) (List.mem_cons_self ..)
    have hc₁ : e₁.network.rule? rule = some c := by
      rw [hframe]
      exact hc
    refine (ends_scheduleOnce hstocked hc₁ hpatterns hnodes).mono ?_
    rintro _ e₂ ⟨hframe₂, hstocked₂, hnodes₂, hfirings⟩
    refine ⟨fun x hx => hrest x (List.mem_cons_of_mem _ hx), ?_, hstocked₂, hnodes₂, ?_,
      hapart.2, ?_⟩
    · rw [hframe₂, hframe]
    · intro a firing ha
      have hagenda : e₂.agenda = e₁.agenda ++ [⟨rule, e₁.nextToken⟩] := by rw [hframe₂]
      rw [hfirings] at ha
      rw [hagenda]
      split at ha
      · rename_i hsame
        refine ⟨(Option.some.inj ha).symm, List.mem_append_right _ ?_⟩
        rw [hsame]
        exact List.mem_singleton.2 rfl
      · obtain ⟨hpending, hmem⟩ := hwaiting a firing ha
        exact ⟨hpending, List.mem_append_left _ hmem⟩
    · intro r c' hc' hpatterns'
      by_cases hr : rule = r
      · -- The rule at hand gets its one activation, and had none.
        subst hr
        refine Or.inr ⟨fun x hx => Ne.symm (hapart.1 x hx), e₁.nextToken, fun j => ?_⟩
        have hnone : ∀ id, e₁.firing? ⟨rule, id⟩ = none := by
          rcases hdone rule c' hc' hpatterns' with ⟨_, hnone⟩ | ⟨hother, _⟩
          · exact hnone
          · exact absurd rfl (hother _ (List.mem_cons_self ..))
        rw [hfirings, hnone]
        constructor
        · rintro ⟨firing, hfiring⟩
          split at hfiring
          · rename_i hsame
            exact (congrArg Activation.token hsame).symm
          · cases hfiring
        · rintro rfl
          exact ⟨.pending, by rw [if_pos rfl]⟩
      · have hfiring : ∀ id, e₂.firing? ⟨r, id⟩ = e₁.firing? ⟨r, id⟩ := by
          intro id
          rw [hfirings, if_neg fun hsame => hr (congrArg Activation.rule hsame)]
        simp only [hfiring]
        rcases hdone r c' hc' hpatterns' with ⟨hmem, hnone⟩ | ⟨hother, hone⟩
        · refine Or.inl ⟨(List.mem_cons.1 hmem).resolve_left fun hsame => ?_, hnone⟩
          exact hr (congrArg Prod.snd hsame).symm
        · exact Or.inr ⟨fun x hx => hother x (List.mem_cons_of_mem _ hx), hone⟩
  · have hnone : ∀ a, e₀.firing? a = none := by
      intro a
      change (e.reset.memory a.rule).firings.get? a.token = none
      rw [memory_reset]
      rfl
    refine ⟨fun x hx => (hrules x).1 hx, rfl, stocked_reset e, ?_, ?_, ?_, ?_⟩
    · intro r id
      change (e.reset.memory r).node? id = none
      rw [memory_reset]
      rfl
    · intro a firing ha
      rw [hnone] at ha
      cases ha
    · exact List.Pairwise.filter _ (List.pairwise_map.1 (by
        rw [List.zipIdx_map_snd]
        exact List.nodup_range'))
    · exact fun r c hc hpatterns => Or.inl ⟨(hrules (c, r)).2 ⟨hc, hpatterns⟩, fun _ => hnone _⟩
  · rintro _ e' ⟨_, hframe, hstocked, hnodes, hwaiting, _, hdone⟩
    have hevents : e'.events = e.base.triples.map .added := by rw [hframe]
    refine ⟨?_, hstocked, hnodes, hwaiting, ?_, ?_, ?_⟩
    · rw [hframe]
    · intro r c hc hpatterns
      rw [hframe] at hc
      rcases hdone r c hc hpatterns with ⟨hmem, _⟩ | ⟨_, hone⟩
      · cases hmem
      · exact hone
    · intro event hevent
      rw [hevents] at hevent
      obtain ⟨t, _, rfl⟩ := List.mem_map.1 hevent
      exact ⟨t, rfl⟩
    · intro t ht
      rw [← hbase.any_triples, List.any_eq_true] at ht
      obtain ⟨u, hu, hsame⟩ := ht
      refine ⟨u, ?_, hsame⟩
      rw [hevents]
      exact List.mem_map_of_mem hu

end Work

/-! ## Changes of the base -/

namespace Engine

variable {e : Engine MemoryGraph}

/-- The engine with a triple added to its base, and announced if it comes into view. -/
def expanded (e : Engine MemoryGraph) (t : Triple) : Engine MemoryGraph :=
  { e with
    base := e.base.plus t
    events := if e.view.sees t = true then e.events else e.events ++ [.added t] }

/-- The engine with a triple deleted from its base, or else from its deductions. -/
def reduced (e : Engine MemoryGraph) (t : Triple) : Engine MemoryGraph :=
  if e.base.contains t = true then
    if e.deductions.contains t = true then
      { e with base := e.base.minus t, suspects := e.suspects.insert t }
    else { e with base := e.base.minus t, events := e.events ++ [.deleted t] }
  else if e.deductions.contains t = true then
    { e with
      base := e.base.minus t
      deductions := e.deductions.minus t
      committed := e.committed.erase t
      events := e.events ++ [.deleted t] }
  else { e with base := e.base.minus t, deductions := e.deductions.minus t }

theorem sees_expanded (hbase : e.base.Sound) {t : Triple} (ht : t.isGround = true) (u : Triple) :
    (e.expanded t).view.sees u = (e.view.sees u || t == u) := by
  change ((e.base.plus t).contains u || e.deductions.contains u) =
    (e.base.contains u || e.deductions.contains u || t == u)
  rw [hbase.contains_plus ht, Bool.or_assoc, Bool.or_comm (t == u), ← Bool.or_assoc]

theorem sees_of_sees_reduced (hbase : e.base.Sound) (hsound : e.deductions.Sound) (t : Triple)
    {u : Triple} (hu : (e.reduced t).view.sees u = true) : e.view.sees u = true := by
  have hsame : (e.reduced t).base = e.base.minus t ∧
      ((e.reduced t).deductions = e.deductions ∨
        (e.reduced t).deductions = e.deductions.minus t) := by
    unfold reduced
    split <;> split <;> simp
  change ((e.reduced t).base.contains u || (e.reduced t).deductions.contains u) = true at hu
  change (e.base.contains u || e.deductions.contains u) = true
  rw [hsame.1, hbase.contains_minus, Bool.or_eq_true, Bool.and_eq_true] at hu
  rw [Bool.or_eq_true]
  rcases hsame.2 with hdeductions | hdeductions
  · rw [hdeductions] at hu
    exact hu.imp_left And.left
  · rw [hdeductions, hsound.contains_minus, Bool.and_eq_true] at hu
    exact hu.imp And.left And.left

theorem Steady.expanded (he : e.Steady) {t : Triple} (ht : t.isGround = true) :
    (e.expanded t).Steady := by
  have hbase := he.consistent.base
  have hcontains : ∀ u, (e.expanded t).base.contains u = (e.base.contains u || t == u) :=
    hbase.contains_plus ht
  have hevents : ∀ event ∈ e.events, event ∈ (e.expanded t).events := by
    intro event hevent
    unfold Engine.expanded
    dsimp only
    split
    · exact hevent
    · exact List.mem_append_left _ hevent
  refine he.shift rfl (hbase.plus ht) he.consistent.deductions ?_ ?_ hevents
  · rintro u (hu | hu)
    · left
      rw [hcontains, hu, Bool.true_or]
    · exact Or.inr hu
  · intro u hu
    left
    change (e.base.contains u || e.deductions.contains u) = true at hu
    change ((e.expanded t).base.contains u || e.deductions.contains u) = true
    rw [hcontains]
    rw [Bool.or_eq_true] at hu
    rcases hu with hu | hu
    · rw [hu, Bool.true_or, Bool.true_or]
    · rw [hu, Bool.or_true]

theorem Steady.reduced (he : e.Steady) (t : Triple) : (e.reduced t).Steady := by
  have hbase := he.consistent.base
  have hsound := he.consistent.deductions
  have hminus : ∀ u, (e.base.minus t).contains u = (e.base.contains u && !(t == u)) :=
    hbase.contains_minus t
  have hgone : ∀ events : List Event, Event.deleted t ∈ events → ∀ u, (t == u) = true →
      Announced { e with events } u := fun events h u hsame => ⟨t, h, hsame⟩
  unfold Engine.reduced
  split
  · split
    · rename_i _ hdeduced
      -- The triple stays in view, and may have lost what it rested on.
      refine he.shift rfl (hbase.minus t) hsound ?_ ?_ fun _ h => h
      · intro u hu
        cases hsame : t == u with
        | true =>
            refine Or.inr (Or.inr (Or.inl ?_))
            change (e.suspects.insert t).contains u = true
            rw [OrderedSet.contains_insert, hsame, Bool.or_true]
        | false =>
            rcases hu with hu | hu | hu | hu
            · left
              change (e.base.minus t).contains u = true
              rw [hminus, hu, hsame]
              rfl
            · exact Or.inr (Or.inl hu)
            · refine Or.inr (Or.inr (Or.inl ?_))
              change (e.suspects.insert t).contains u = true
              rw [OrderedSet.contains_insert, hu, Bool.true_or]
            · exact Or.inr (Or.inr (Or.inr hu))
      · intro u hu
        left
        change (e.base.contains u || e.deductions.contains u) = true at hu
        change ((e.base.minus t).contains u || e.deductions.contains u) = true
        rw [hminus]
        cases hsame : t == u with
        | true => rw [← e.deductions.contains_congr hsame, hdeduced, Bool.or_true]
        | false => rw [Bool.not_false, Bool.and_true, hu]
    · rename_i _ hdeduced
      refine he.shift rfl (hbase.minus t) hsound ?_ ?_ fun _ h => List.mem_append_left _ h
      · intro u hu
        cases hsame : t == u with
        | true =>
            refine Or.inr (Or.inr (Or.inr ?_))
            change e.deductions.contains u = false
            rw [← e.deductions.contains_congr hsame]
            exact Bool.eq_false_iff.2 hdeduced
        | false =>
            rcases hu with hu | hu
            · left
              change (e.base.minus t).contains u = true
              rw [hminus, hu, hsame]
              rfl
            · exact Or.inr hu
      · intro u hu
        change (e.base.contains u || e.deductions.contains u) = true at hu
        cases hsame : t == u with
        | true => exact Or.inr (hgone _ (List.mem_append_right _ (List.mem_singleton.2 rfl)) u hsame)
        | false =>
            left
            change ((e.base.minus t).contains u || e.deductions.contains u) = true
            rw [hminus, hsame, Bool.not_false, Bool.and_true, hu]
  · split
    · refine he.shift rfl (hbase.minus t) (hsound.minus t) ?_ ?_
        fun _ h => List.mem_append_left _ h
      · intro u hu
        cases hsame : t == u with
        | true =>
            refine Or.inr (Or.inr (Or.inr ?_))
            change (e.deductions.minus t).contains u = false
            rw [hsound.contains_minus, hsame, Bool.not_true, Bool.and_false]
        | false =>
            rcases hu with hu | hu | hu | hu
            · left
              change (e.base.minus t).contains u = true
              rw [hminus, hu, hsame]
              rfl
            · refine Or.inr (Or.inl ?_)
              change (e.committed.erase t).contains u = true
              rw [OrderedSet.contains_erase, hu, hsame]
              rfl
            · exact Or.inr (Or.inr (Or.inl hu))
            · refine Or.inr (Or.inr (Or.inr ?_))
              change (e.deductions.minus t).contains u = false
              rw [hsound.contains_minus, hu, Bool.false_and]
      · intro u hu
        change (e.base.contains u || e.deductions.contains u) = true at hu
        cases hsame : t == u with
        | true => exact Or.inr (hgone _ (List.mem_append_right _ (List.mem_singleton.2 rfl)) u hsame)
        | false =>
            left
            change ((e.base.minus t).contains u || (e.deductions.minus t).contains u) = true
            rw [hminus, hsound.contains_minus, hsame, Bool.not_false, Bool.and_true, Bool.and_true, hu]
    · rename_i hbaseNot hdeducedNot
      have hfree : ∀ u, (t == u) = true →
          e.base.contains u = false ∧ e.deductions.contains u = false := by
        intro u hsame
        rw [← e.base.contains_congr hsame, ← e.deductions.contains_congr hsame]
        exact ⟨Bool.eq_false_iff.2 hbaseNot, Bool.eq_false_iff.2 hdeducedNot⟩
      have hbaseSame : ∀ u, (e.base.minus t).contains u = e.base.contains u := by
        intro u
        rw [hminus]
        cases hsame : t == u with
        | true => rw [(hfree u hsame).1, Bool.false_and]
        | false => rw [Bool.not_false, Bool.and_true]
      have hdeducedSame : ∀ u, (e.deductions.minus t).contains u = e.deductions.contains u := by
        intro u
        rw [hsound.contains_minus]
        cases hsame : t == u with
        | true => rw [(hfree u hsame).2, Bool.false_and]
        | false => rw [Bool.not_false, Bool.and_true]
      refine he.shift rfl (hbase.minus t) (hsound.minus t) ?_ ?_ fun _ h => h
      · intro u hu
        unfold Excused at hu ⊢
        dsimp only
        rw [hbaseSame, hdeducedSame]
        exact hu
      · intro u hu
        left
        change ((e.base.minus t).contains u || (e.deductions.minus t).contains u) = true
        rw [hbaseSame, hdeducedSame]
        exact hu

theorem Steady.queue (he : e.Steady) (event : Event) : (e.queue event).Steady :=
  he.shift rfl he.consistent.base he.consistent.deductions (fun _ h => h) (fun _ h => Or.inl h)
    fun _ h => List.mem_append_left _ h

end Engine

namespace Work

variable {e : Engine MemoryGraph}

theorem addToBase_of_not_ground {t : Triple} (ht : t.isGround = false) :
    addToBase t e = .error (.graph (.invalidTriple t)) e := by
  have hadd : (Graph.add e.base t : Except GraphError (Bool × MemoryGraph)) =
      .error (.invalidTriple t) := MemoryGraph.add_of_not_ground ht
  unfold addToBase
  change EStateM.bind get _ e = _
  unfold EStateM.bind
  change EStateM.bind (access (Graph.add e.base t)) _ e = _
  rw [hadd]
  rfl

theorem ends_addToBase (hbase : e.base.Sound) {t : Triple} (ht : t.isGround = true) :
    (addToBase t).Ends e fun answer e' => answer = !e.base.contains t ∧ e' = e.expanded t := by
  have hadd : (Graph.add e.base t : Except GraphError (Bool × MemoryGraph)) =
      .ok (!e.base.contains t, e.base.plus t) := hbase.add_eq ht
  unfold addToBase
  simp only [ends_bind, ends_get, hadd, ends_access, ends_set]
  have hsees : e.view.sees t = (e.base.contains t || e.deductions.contains t) := rfl
  unfold Engine.expanded
  rw [hsees]
  cases e.base.contains t with
  | true => exact ⟨rfl, rfl⟩
  | false =>
      cases hdeduced : e.deductions.contains t with
      | true =>
          simp only [Bool.not_false, Bool.not_true, Bool.and_false, Bool.false_eq_true, if_false]
          exact ⟨rfl, rfl⟩
      | false => exact ⟨rfl, rfl⟩

theorem ends_deleteVisible (hbase : e.base.Sound) (hsound : e.deductions.Sound) (t : Triple) :
    (deleteVisible t).Ends e fun answer e' => answer = e.view.sees t ∧ e' = e.reduced t := by
  have hdelete : (Graph.delete e.base t : Except GraphError (Bool × MemoryGraph)) =
      .ok (e.base.contains t, e.base.minus t) := hbase.delete_eq t
  unfold deleteVisible
  simp only [ends_bind, ends_get, hdelete, ends_access, ends_set]
  have hsees : e.view.sees t = (e.base.contains t || e.deductions.contains t) := rfl
  unfold Engine.reduced
  rw [hsees]
  cases hstored : e.base.contains t with
  | true =>
      simp only [if_true, Bool.true_or]
      split <;> exact ⟨rfl, rfl⟩
  | false =>
      simp only [Bool.false_eq_true, if_false, ends_bind]
      apply ends_retractDeduction (e := { e with base := e.base.minus t }) hsound
      change Ends (if e.deductions.contains t = true then _ else _) _ _
      split
      · rename_i hdeduced
        rw [hdeduced]
        exact ⟨rfl, rfl⟩
      · rename_i hdeduced
        exact ⟨(Bool.eq_false_iff.2 hdeduced).symm, rfl⟩

end Work

end Entailment
