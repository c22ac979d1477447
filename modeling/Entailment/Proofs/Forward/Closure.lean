import Entailment.Proofs.Forward.Perseverance
import Mathlib.Order.Bounds.Defs

/-!
# The deductions of an engine at rest

When nothing waits, a diligent engine has a firing for every instance whose body triples
are in view, and each firing says whether the calls of the instance hold.  So its
deductions are closed under the rules, and they are the least such set, because each of
them is held up by a firing that has matched grounded triples.
-/

namespace Entailment

/-- No rule of a monotonic network asks for something that more triples can make false. -/
theorem Network.isMonotonic_rule {n : Network} (h : n.isMonotonic = true) {r : Nat}
    {c : CompiledRule} (hc : n.rule? r = some c) : c.nonMonotonic = false := by
  have hmonotonic := List.all_eq_true.1 h c (List.mem_of_getElem? hc)
  rw [CompiledRule.isMonotonic, Bool.and_eq_true, Bool.not_eq_true'] at hmonotonic
  exact hmonotonic.1

namespace Engine

variable {e : Engine MemoryGraph} {P : Node → Prop}

/-! ## A firing for every instance -/

section Matching

variable {r : Nat} {c : CompiledRule} {σ : Assignment}

/-- Facts in view that fit the first patterns of a rule are matched by a token. -/
theorem Diligent.exists_place (he : e.Diligent P) (hsteady : e.Steady) (hquiet : e.Quiet)
    (helementary : e.network.Elementary) (hc : e.network.rule? r = some c)
    (hfacts : ∀ p, Clause.pattern p ∈ c.rule.body → ∃ t, p.Fits σ t ∧ e.view.sees t = true)
    {level : Nat} (hlevel : level ≤ c.levels) :
    ∃ place ts b, (e.memory r).Spells place ts ∧ ts.length = level ∧ c.Matches ts b ∧
      b.Admits σ := by
  have hwired := hsteady.consistent.wired
  induction level with
  | zero =>
      refine ⟨none, [], _, .root, rfl, .none, fun i n hi => ?_⟩
      rw [Bindings.held?_empty] at hi
      cases hi
  | succ level ih =>
      obtain ⟨place, ts, b, hts, hlength, hmatches, hσ⟩ := ih (Nat.le_of_succ_le hlevel)
      obtain ⟨p, hp⟩ : ∃ p, c.patterns[ts.length]? = some p :=
        ⟨_, List.getElem?_eq_getElem (hlength ▸ hlevel)⟩
      have hbody := hwired.pattern_mem hc hp
      obtain ⟨t, hfits, hseen⟩ := hfacts p.2 hbody
      have hground := hsteady.consistent.sound.isGround hseen
      have hvars : ∀ i ∈ p.2.indexes, i < b.length := by
        intro i hi
        rw [hmatches.length_bindings]
        exact (helementary.rule r c hc).1.lt_numVars (Rule.mem_boundIndexes_iff.2 ⟨_, hbody, hi⟩)
      obtain ⟨b', hmatch⟩ := hmatches.ground.exists_matching? hground hvars hσ hfits
      rcases he.joined r place t ⟨c, ts, b, _, b', hc, hts, hmatches, hp, hseen, hmatch⟩ with
        ⟨id, hid⟩ | ⟨w, hw, _⟩
      · have hstock := hsteady.consistent.stocked.2 r
        obtain ⟨token, hnode, hparent, hsame⟩ := (hstock.indexed.edge_iff place t id).1 hid
        have hspells : (e.memory r).Spells (some id) (ts ++ [token.triple]) :=
          .child hnode (hparent ▸ hts)
        have hmatches' := (hstock.token c hc id token _ hnode hspells).1
        refine ⟨some id, _, _, hspells, by simp [hlength], hmatches', ?_⟩
        rw [hmatches'.admits_iff, CompiledRule.fitEach_append_singleton hp]
        exact ⟨(hmatches.admits_iff σ).1 hσ,
          hfits.congr (fun _ _ => BEq.rfl) (BEq.symm hsame)⟩
      · rw [hquiet.events] at hw
        cases hw

/-- Every instance whose body triples are in view has a firing. -/
theorem Diligent.exists_firing (he : e.Diligent P) (hsteady : e.Steady) (hquiet : e.Quiet)
    (helementary : e.network.Elementary) (hc : e.network.rule? r = some c)
    (hfacts : ∀ p, Clause.pattern p ∈ c.rule.body → ∃ t, p.Fits σ t ∧ e.view.sees t = true) :
    ∃ a firing b, a.rule = r ∧ e.firing? a = some firing ∧ c.Matches (e.matchedBy a) b ∧
      (e.matchedBy a).length = c.levels ∧ b.Admits σ := by
  have hstock := hsteady.consistent.stocked.2 r
  obtain ⟨place, ts, b, hts, hlength, hmatches, hσ⟩ :=
    he.exists_place hsteady hquiet helementary hc hfacts (Nat.le_refl c.levels)
  cases hpatterns : c.patterns with
  | nil =>
      obtain ⟨id, hone⟩ := he.unconditional r c hc hpatterns
      obtain ⟨firing, hid⟩ := (hone id).2 rfl
      obtain ⟨d, hd, hcomplete, b', hmatches'⟩ := hsteady.consistent.stocked.rule_of_firing hid
      obtain rfl : c = d := Option.some.inj (hc.symm.trans hd)
      have hnone : e.matchedBy ⟨r, id⟩ = ts := by
        have hzero : c.levels = 0 := by rw [CompiledRule.levels, hpatterns]; rfl
        rw [List.eq_nil_of_length_eq_zero (hcomplete.trans hzero),
          List.eq_nil_of_length_eq_zero (hlength.trans hzero)]
      exact ⟨⟨r, id⟩, firing, b, rfl, hid, hnone ▸ hmatches, hcomplete, hσ⟩
  | cons p ps =>
      cases place with
      | none =>
          cases hts
          rw [CompiledRule.levels, hpatterns] at hlength
          cases hlength
      | some id =>
          obtain ⟨token, below, hnode, _, _⟩ := hts.exists_token
          have hlevel := hts.length_eq hstock.rooted hnode
          obtain ⟨firing, hid⟩ := he.ready r c id token hc hnode (hlevel ▸ hlength)
          have hmatched : e.matchedBy ⟨r, id⟩ = ts := hts.triples_eq
          exact ⟨⟨r, id⟩, firing, b, rfl, hid, hmatched ▸ hmatches, hmatched ▸ hlength, hσ⟩

end Matching

/-! ## What firings say of the calls -/

/-- The answers that the view gives are those of the firings: either no answer can
change, or the view is that of the engine and all answers stand. -/
def Settled (e : Engine MemoryGraph) (v : View MemoryGraph) : Prop :=
  e.network.isMonotonic = true ∨ v = e.view ∧ ∀ a, e.Upheld a

section Answers

variable {v : View MemoryGraph} {a : Activation} {c : CompiledRule} {b : Bindings}

/-- The answer that an activation stands for is the one that its calls give. -/
theorem Settled.callsHold_iff (h : e.Settled v) (hsteady : e.Steady)
    (helementary : e.network.Elementary) (hc : e.network.rule? a.rule = some c)
    (hnonMonotonic : c.nonMonotonic = true) {firing : Firing} (ha : e.firing? a = some firing)
    {fired : Bool} (hrevisable : firing.revisable? = some fired)
    (hmatches : c.Matches (e.matchedBy a) b) :
    c.rule.CallsHold e.network.registry v b ↔ fired = true := by
  rcases h with hmonotonic | ⟨rfl, hupheld⟩
  · rw [Network.isMonotonic_rule hmonotonic hc] at hnonMonotonic
    cases hnonMonotonic
  · have hof := hsteady.consistent.wired.eq_ofRule hc
    obtain ⟨b', w, st, hb', hall⟩ := hupheld a c firing fired hc hnonMonotonic ha hrevisable
    obtain ⟨hmatches', _⟩ := hsteady.consistent.stocked.matches_of_bindings hc ha hb'
    obtain rfl := hmatches.unique hmatches'
    have hcalls := (helementary.rule a.rule c hc).2.allHold_speculatively
      (helementary.safe a.rule c hc hnonMonotonic) hsteady.consistent.sound (c.matched (e.matchedBy a)) w hmatches.ground
    rw [← hcalls]
    have hlist : c.calls = c.rule.calls.map Prod.snd := by rw [hof]; rfl
    rw [hlist] at hall
    change (allHold (fun call st =>
      call.holdsSpeculatively e.network.registry (e.callContext c a true) st)
      (c.rule.calls.map Prod.snd) { bindings := b, world := w }).1 = true ↔ _
    rw [hall]

theorem Diligent.not_callsHold_of_blocked (he : e.Diligent P) (h : e.Settled v)
    (hsteady : e.Steady) (helementary : e.network.Elementary)
    (hc : e.network.rule? a.rule = some c) (ha : e.firing? a = some .blocked)
    (hmatches : c.Matches (e.matchedBy a) b) : ¬ c.rule.CallsHold e.network.registry v b := by
  cases hkind : c.nonMonotonic with
  | false => exact he.proper a c _ hc ha hkind b v hmatches
  | true =>
      rw [h.callsHold_iff hsteady helementary hc hkind ha rfl hmatches]
      exact Bool.false_ne_true

theorem Diligent.callsHold_of_fired (he : e.Diligent P) (h : e.Settled v) (hsteady : e.Steady)
    (helementary : e.network.Elementary) (hc : e.network.rule? a.rule = some c)
    {conclusions : List Triple} {hidden : List Node}
    (ha : e.firing? a = some (.fired conclusions hidden false))
    (hmatches : c.Matches (e.matchedBy a) b) : c.rule.CallsHold e.network.registry v b := by
  cases hkind : c.nonMonotonic with
  | false => exact ((he.proper a c _ hc ha).2 b hmatches).1 hkind v
  | true =>
      rw [h.callsHold_iff hsteady helementary hc hkind ha rfl hmatches]

/-- The calls of an instance are asked in an environment like that of its match. -/
theorem callsHold_environment_iff (hsteady : e.Steady) (helementary : e.network.Elementary)
    (h : e.Settled v) (hc : e.network.rule? a.rule = some c)
    (hmatches : c.Matches (e.matchedBy a) b) (hlength : (e.matchedBy a).length = c.levels)
    {σ : Assignment} (hσ : b.Admits σ) :
    c.rule.CallsHold e.network.registry v (c.rule.environment σ) ↔
      c.rule.CallsHold e.network.registry v b := by
  have hwired := hsteady.consistent.wired
  obtain ⟨hrule, hfair⟩ := helementary.rule a.rule c hc
  have hlike : b.Alike (c.rule.environment σ) := by
    have hof := hwired.eq_ofRule hc
    exact hrule.alike_environment (hof ▸ hmatches) (hof ▸ hlength) hσ
  have hinView : c.rule.CallsHold e.network.registry e.view (c.rule.environment σ) ↔
      c.rule.CallsHold e.network.registry e.view b :=
    (hfair.callsHold_congr hsteady.consistent.sound hlike).symm
  rcases h with hmonotonic | ⟨rfl, _⟩
  · have hkind := Network.isMonotonic_rule hmonotonic hc
    rw [helementary.callsHold_anywhere hwired hc hkind hlike.other v e.view, hinView,
      helementary.callsHold_anywhere hwired hc hkind hlike.ground e.view v]
  · exact hinView

end Answers

/-! ## The least closed set -/

section Least

variable {v : View MemoryGraph} {rules : List Rule}

theorem exists_rule? (hrules : e.network.rules = rules.map (CompiledRule.ofRule e.network.registry))
    {rule : Rule} (hrule : rule ∈ rules) :
    ∃ r, e.network.rule? r = some (CompiledRule.ofRule e.network.registry rule) := by
  have hmem : CompiledRule.ofRule e.network.registry rule ∈ e.network.rules := by
    rw [hrules]
    exact List.mem_map_of_mem hrule
  obtain ⟨r, hr, hget⟩ := List.getElem_of_mem hmem
  exact ⟨r, by rw [← hget]; exact List.getElem?_eq_getElem hr⟩

theorem rule_mem (hrules : e.network.rules = rules.map (CompiledRule.ofRule e.network.registry))
    {r : Nat} {c : CompiledRule} (hc : e.network.rule? r = some c) : c.rule ∈ rules := by
  have hmem := List.mem_of_getElem? hc
  rw [hrules] at hmem
  obtain ⟨rule, hrule, rfl⟩ := List.mem_map.1 hmem
  exact hrule

/-- The deductions hold the head triples of every instance. -/
theorem Diligent.closed (he : e.Diligent P) (hsteady : e.Steady) (hquiet : e.Quiet)
    (helementary : e.network.Elementary) (h : e.Settled v)
    (hrules : e.network.rules = rules.map (CompiledRule.ofRule e.network.registry)) :
    Closed rules e.network.registry e.base v {t | e.deductions.contains t = true} := by
  intro rule hrule σ hfacts hcalls p hp t hfits
  obtain ⟨r, hc⟩ := exists_rule? hrules hrule
  have hseen : ∀ p, Clause.pattern p ∈ rule.body → ∃ t, p.Fits σ t ∧ e.view.sees t = true := by
    intro p hp
    obtain ⟨t, hfits, ht⟩ := hfacts p hp
    exact ⟨t, hfits, Bool.or_eq_true_iff.2 ht⟩
  obtain ⟨a, firing, b, rfl, ha, hmatches, hlength, hσ⟩ :=
    he.exists_firing hsteady hquiet helementary hc hseen
  have hholds := (callsHold_environment_iff hsteady helementary h hc hmatches hlength hσ).1 hcalls
  cases firing with
  | pending =>
      have hmem := he.waiting a ha
      rw [hquiet.agenda] at hmem
      cases hmem
  | blocked =>
      exact absurd hholds (he.not_callsHold_of_blocked h hsteady helementary hc ha hmatches)
  | fired conclusions hidden committed =>
      obtain ⟨rfl, hproper⟩ := he.proper a _ _ hc ha
      have hdrawn : conclusions.any (· == t) = true := by
        refine ((hproper b hmatches).2 t).2 ⟨p, hp, hfits.congr (fun i hi => ?_) BEq.rfl⟩
        have hbound := (helementary.rule a.rule _ hc).1.bound_of_head hp hi
        have hlike := (helementary.rule a.rule _ hc).1.alike_environment hmatches hlength hσ
        have hheld := hlike.held i
        rw [Rule.held?_environment,
          if_pos ⟨(helementary.rule a.rule _ hc).1.lt_numVars hbound, hbound⟩] at hheld
        rcases Bindings.option_beq_iff.1 hheld with ⟨_, hcontra⟩ | ⟨m, n, hm, hn, hsame⟩
        · cases hcontra
        · rw [Bindings.assignment, hm, Option.getD_some, Option.some.inj hn]
          exact BEq.symm hsame
      by_contra hmissing
      exact he.prudent.not_astray hsteady hquiet a t
        ⟨⟨_, ha, conclusions, hidden, rfl, hdrawn⟩, Bool.eq_false_iff.2 hmissing⟩

/-- Whatever closed set holds what an activation has matched holds what it has drawn. -/
theorem Diligent.mem_of_fires (he : e.Diligent P) (hsteady : e.Steady)
    (helementary : e.network.Elementary) (h : e.Settled v)
    (hrules : e.network.rules = rules.map (CompiledRule.ofRule e.network.registry))
    {S : Set Triple} (hS : Closed rules e.network.registry e.base v S) {a : Activation}
    {t : Triple} (hfires : e.Fires a t)
    (hmatched : ∀ m ∈ e.matchedBy a, e.base.contains m = true ∨ m ∈ S) : t ∈ S := by
  obtain ⟨_, ha, conclusions, hidden, rfl, hdrawn⟩ := hfires
  obtain ⟨c, hc, hlength, b, hmatches⟩ := hsteady.consistent.stocked.rule_of_firing ha
  have hholds := he.callsHold_of_fired h hsteady helementary hc ha hmatches
  obtain ⟨p, hp, hfits⟩ := ((he.proper a c _ hc ha).2 b hmatches).2 t |>.1 hdrawn
  refine hS c.rule (rule_mem hrules hc) b.assignment (fun q hq => ?_) ?_ p hp t hfits
  · obtain ⟨level, j, hpattern⟩ := hsteady.consistent.wired.exists_level hc hq
    have hlt : level < (e.matchedBy a).length := by
      rw [hlength]
      exact (List.getElem?_eq_some_iff.1 hpattern).1
    exact ⟨_, hmatches.fits hpattern (List.getElem?_eq_getElem hlt),
      hmatched _ (List.getElem_mem hlt)⟩
  · exact (callsHold_environment_iff hsteady helementary h hc hmatches hlength
      b.admits_assignment).2 hholds

/-- At rest the deductions are the least set that is closed under the rules. -/
theorem Diligent.isLeast (he : e.Diligent P) (hsteady : e.Steady) (hquiet : e.Quiet)
    (helementary : e.network.Elementary) (h : e.Settled v)
    (hrules : e.network.rules = rules.map (CompiledRule.ofRule e.network.registry)) :
    IsLeast {S : Set Triple | Closed rules e.network.registry e.base v S}
      {t | e.deductions.contains t = true} := by
  refine ⟨he.closed hsteady hquiet helementary h hrules, fun S hS t ht => ?_⟩
  -- What is grounded is in the base or in the set, by induction on its proof.
  have hgrounded : ∀ u, e.Grounded u → e.base.contains u = true ∨ u ∈ S := by
    intro u hu
    induction hu with
    | given hgiven =>
        rcases hgiven with hbase | hcommitted
        · exact Or.inl hbase
        · rw [he.uncommitted] at hcommitted
          cases hcommitted
    | step hdraws _ ih =>
        obtain ⟨_, a, ha, rfl⟩ := hdraws
        exact Or.inr (he.mem_of_fires hsteady helementary h hrules hS
          ((hsteady.backed _ a).1 ha) ih)
  obtain ⟨a, ha⟩ := List.exists_mem_of_ne_nil _ (he.held t ht)
  refine he.mem_of_fires hsteady helementary h hrules hS ((hsteady.backed t a).1 ha) ?_
  intro m hm
  refine hgrounded m (hsteady.grounded hquiet ?_)
  exact hsteady.consistent.sees_of_mem_matchedBy (not_announced_of_events hquiet.events) hm

end Least

end Engine

end Entailment
