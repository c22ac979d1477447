import Entailment.Proofs.Forward.Foundation
import Entailment.Proofs.Forward.Thoroughness
import Entailment.Proofs.Rule.Instance

/-!
# Exact memories

Between two pieces of work, when no event waits, the tokens of a rule are its partial
matches, one for each sequence of facts in view that fit the first patterns together,
and the activations are the complete ones.  That no match is missing is what it means
for an engine to be thorough, that none is stale is what it means to be consistent, and
that none is stored twice is due to the index of the memory by the place that a fact
extends.
-/

namespace Entailment

namespace Outcome

variable {σ α : Type}

def isDone : Outcome σ α → Bool
  | .done _ _ => true
  | _ => false

theorem eq_done_of_isDone {outcome : Outcome σ α} (h : outcome.isDone = true) (s : σ) :
    ∃ a, outcome = .done a (outcome.state?.getD s) := by
  cases outcome with
  | done a s' => exact ⟨a, rfl⟩
  | failed | unfinished => cases h

end Outcome

namespace TokenMemory

/-- The token is there and has matched the triples. -/
def Stores (m : TokenMemory) (id : TokenId) (ts : List Triple) : Prop :=
  (m.token? id).isSome = true ∧ (m.triples id == ts) = true

theorem exists_token?_iff {m : TokenMemory} {id : TokenId} {level : Nat} :
    (∃ token, m.token? id = some token ∧ token.level = level) ↔
      ∃ token, m.node? id = some token ∧ token.level = level := by
  unfold node?
  constructor
  · rintro ⟨token, hid, rfl⟩
    exact ⟨token.bare, by rw [hid]; rfl, rfl⟩
  · rintro ⟨_, hid, rfl⟩
    obtain ⟨token, htoken, rfl⟩ := Option.map_eq_some_iff.1 hid
    exact ⟨token, htoken, rfl⟩

theorem stores_iff {m : TokenMemory} (hm : m.Rooted) {id : TokenId} {ts : List Triple} :
    m.Stores id ts ↔ ∃ us, m.Spells (some id) us ∧ (us == ts) = true := by
  have hsome : (m.token? id).isSome = true ↔ ∃ token, m.node? id = some token := by
    rw [← Option.isSome_iff_exists, node?, Option.isSome_map]
  unfold Stores
  rw [hsome]
  constructor
  · rintro ⟨⟨token, hid⟩, hsame⟩
    obtain ⟨us, hus⟩ := hm.exists_spells hid
    exact ⟨us, hus, hus.triples_eq ▸ hsame⟩
  · rintro ⟨us, hus, hsame⟩
    obtain ⟨token, _, hid, _, _⟩ := hus.exists_token
    exact ⟨⟨token, hid⟩, hus.triples_eq.symm ▸ hsame⟩

end TokenMemory

namespace CompiledRule

theorem fitEach_singleton {c : CompiledRule} {σ : Assignment} {p : Nat × Triple} {t : Triple}
    (hp : c.patterns[0]? = some p) : c.FitEach σ [t] ↔ p.2.Fits σ t := by
  have hnone : c.FitEach σ [] := fun _ _ _ _ h => nomatch h
  exact (fitEach_append_singleton hp).trans (and_iff_right hnone)

end CompiledRule

namespace Network

/-- The rules have a slot for every variable. -/
def Slotted (n : Network) : Prop :=
  ∀ r c (level : Nat) (p : Nat × Triple), n.rule? r = some c → c.patterns[level]? = some p →
    ∀ i ∈ p.2.indexes, i < c.rule.numVars

theorem slotted_of_made {rules : List Rule} {registry : Registry} {n : Network}
    (hn : compile rules registry = .ok n)
    (hmade : ∀ rule ∈ rules, ∃ name body head, rule = .make name body head .forward) :
    n.Slotted := by
  obtain ⟨hwired, _, hrules⟩ := compile_eq_ok hn
  intro r c level p hc hp i hi
  obtain ⟨hbody, hrule⟩ : Clause.pattern p.2 ∈ c.rule.body ∧ c.rule ∈ rules := by
    rw [rule?, hrules, List.getElem?_map] at hc
    obtain ⟨rule, hrule, rfl⟩ := Option.map_eq_some_iff.1 hc
    exact ⟨Rule.mem_patterns_iff.1 ⟨p.1, List.mem_of_getElem? hp⟩, List.mem_of_getElem? hrule⟩
  obtain ⟨name, body, head, hmade⟩ := hmade _ hrule
  rw [hmade] at hbody ⊢
  exact Rule.lt_numVars_of_make
    (List.mem_flatMap.2 ⟨.pattern p.2, List.mem_append_left _ hbody, hi⟩)

theorem overt_of_plain {rules : List Rule} {registry : Registry} {n : Network}
    (hn : compile rules registry = .ok n)
    (hplain : ∀ rule ∈ rules, ∀ p, Clause.pattern p ∈ rule.body → p.hasPlainPredicate = true) :
    n.Overt := by
  obtain ⟨_, _, hrules⟩ := compile_eq_ok hn
  intro r c level p hc hp
  rw [rule?, hrules, List.getElem?_map] at hc
  obtain ⟨rule, hrule, rfl⟩ := Option.map_eq_some_iff.1 hc
  exact hplain rule (List.mem_of_getElem? hrule) p.2
    (Rule.mem_patterns_iff.1 ⟨p.1, List.mem_of_getElem? hp⟩)

end Network

namespace Engine

variable {e e' : Engine MemoryGraph} {n : Network}

/-- The memories hold what is to be held for the facts in view, and hold it once. -/
structure Exact (e : Engine MemoryGraph) : Prop where
  /-- No token is stale. -/
  token : ∀ r c, e.network.rule? r = some c →
    ∀ id token, (e.memory r).token? id = some token →
      ((e.memory r).triples id).length = token.level + 1 ∧ token.level < c.levels ∧
      (∀ t ∈ (e.memory r).triples id, e.view.sees t = true) ∧
      ∃ σ, c.FitEach σ ((e.memory r).triples id)
  /-- No partial match is missing, and none is stored twice. -/
  stored : ∀ r c, e.network.rule? r = some c → ∀ ts : List Triple, ts ≠ [] →
    ts.length ≤ c.levels → (∀ t ∈ ts, e.view.sees t = true) → (∃ σ, c.FitEach σ ts) →
    ∃! id, (e.memory r).Stores id ts
  /-- The activations are the complete tokens. -/
  complete : ∀ r c, e.network.rule? r = some c → c.patterns ≠ [] → ∀ id,
    (∃ firing, (e.memory r).firings.get? id = some firing) ↔
      ∃ token, (e.memory r).token? id = some token ∧ token.level + 1 = c.levels
  /-- A rule without patterns has one activation. -/
  unconditional : ∀ r c, e.network.rule? r = some c → c.patterns = [] →
    ∃! id, ∃ firing, (e.memory r).firings.get? id = some firing

/-! ## A token for every match -/

/-- Facts in view that fit the first patterns of a rule together are matched by a token. -/
theorem Thorough.exists_place (he : e.Thorough) (hconsistent : e.Consistent nothingGone)
    (hslotted : e.network.Slotted) (hevents : e.events = []) {r : Nat} {c : CompiledRule}
    (hc : e.network.rule? r = some c) {σ : Assignment} {ts : List Triple}
    (hlength : ts.length ≤ c.levels) (hseen : ∀ t ∈ ts, e.view.sees t = true)
    (hfits : c.FitEach σ ts) :
    ∃ place us b, (e.memory r).Spells place us ∧ us.map Triple.folded = ts.map Triple.folded ∧
      c.Matches us b ∧ b.Admits σ := by
  induction ts using List.reverseRecOn with
  | nil =>
      refine ⟨none, [], _, .root, rfl, .none, fun i m hi => ?_⟩
      rw [Bindings.held?_empty] at hi
      cases hi
  | append_singleton ts t ih =>
      rw [List.length_append, List.length_singleton] at hlength
      obtain ⟨p, hp⟩ : ∃ p, c.patterns[ts.length]? = some p :=
        ⟨_, List.getElem?_eq_getElem (Nat.lt_of_succ_le hlength)⟩
      rw [CompiledRule.fitEach_append_singleton hp] at hfits
      obtain ⟨place, us, b, hus, hsame, hmatches, hσ⟩ := ih (Nat.le_of_succ_le hlength)
        (fun u hu => hseen u (List.mem_append_left _ hu)) hfits.1
      have hlevel : us.length = ts.length := by simpa using congrArg List.length hsame
      rw [← hlevel] at hp
      have ht := hseen t (List.mem_append_right _ (List.mem_singleton.2 rfl))
      have hvars : ∀ i ∈ p.2.indexes, i < b.length := by
        intro i hi
        rw [hmatches.length_bindings]
        exact hslotted r c _ p hc hp i hi
      obtain ⟨b', hmatch⟩ := hmatches.ground.exists_matching?
        (hconsistent.sound.isGround ht) hvars hσ hfits.2
      rcases he.joined r place t ⟨c, us, b, p, b', hc, hus, hmatches, hp, ht, hmatch⟩ with
        ⟨id, hid⟩ | ⟨w, hw, _⟩
      · have hstock := hconsistent.stocked.2 r
        obtain ⟨token, hnode, hparent, htriple⟩ := (hstock.indexed.edge_iff place t id).1 hid
        have hspells : (e.memory r).Spells (some id) (us ++ [token.triple]) :=
          .child hnode (hparent ▸ hus)
        have hmatches' := (hstock.token c hc id token _ hnode hspells).1
        refine ⟨some id, _, _, hspells, ?_, hmatches', ?_⟩
        · rw [List.map_append, List.map_append, hsame, List.map_singleton, List.map_singleton,
            Triple.beq_iff_folded.1 htriple]
        · rw [hmatches'.admits_iff, CompiledRule.fitEach_append_singleton hp]
          exact ⟨(hmatches.admits_iff σ).1 hσ,
            hfits.2.congr (fun _ _ => BEq.rfl) (BEq.symm htriple)⟩
      · rw [hevents] at hw
        cases hw

/-- When no event waits, a thorough and consistent engine has exact memories. -/
theorem Thorough.exact (he : e.Thorough) (hconsistent : e.Consistent nothingGone)
    (hslotted : e.network.Slotted) (hevents : e.events = []) : e.Exact where
  token := by
    intro r c hc id token hid
    have hstock := hconsistent.stocked.2 r
    obtain ⟨bare, hnode, hlevel⟩ :=
      TokenMemory.exists_token?_iff.1 ⟨token, hid, rfl⟩
    obtain ⟨ts, hts⟩ := hstock.rooted.exists_spells hnode
    have hlength := hts.length_eq hstock.rooted hnode
    have hmatches := (hstock.token c hc id bare ts hnode hts).1
    rw [hts.triples_eq]
    refine ⟨hlevel ▸ hlength, ?_, fun t ht => ?_, _, fun i p t hp ht => hmatches.fits hp ht⟩
    · have hle := hmatches.length_le
      omega
    · refine hconsistent.sees_of_mem_matchedBy (a := ⟨r, id⟩) (not_announced_of_events hevents) ?_
      rw [matchedBy, hts.triples_eq]
      exact ht
  stored := by
    rintro r c hc ts hne hlength hseen ⟨σ, hσ⟩
    have hstock := hconsistent.stocked.2 r
    obtain ⟨place, us, _, hus, hsame, _⟩ :=
      he.exists_place hconsistent hslotted hevents hc hlength hseen hσ
    cases place with
    | none =>
        cases hus
        exact absurd (List.map_eq_nil_iff.1 hsame.symm) hne
    | some id =>
        refine ⟨id, (TokenMemory.stores_iff hstock.rooted).2
          ⟨us, hus, list_beq_iff_map_folded.2 hsame⟩, fun j hj => ?_⟩
        obtain ⟨vs, hvs, hsame'⟩ := (TokenMemory.stores_iff hstock.rooted).1 hj
        exact Option.some.inj (hvs.place_unique hstock.indexed hus
          ((list_beq_iff_map_folded.1 hsame').trans hsame.symm))
  complete := by
    intro r c hc hpatterns id
    have hstock := hconsistent.stocked.2 r
    have hlevels : ∀ level : Nat, level + 1 = c.levels ↔ level = c.levels - 1 := by
      have hpos : 0 < c.levels := List.length_pos_iff.2 hpatterns
      omega
    simp only [hlevels]
    rw [TokenMemory.exists_token?_iff]
    simp only [← hlevels]
    constructor
    · rintro ⟨firing, hfiring⟩
      obtain ⟨hcomplete, _⟩ := hstock.firing c hc id firing hfiring
      cases hnode : (e.memory r).node? id with
      | none =>
          rw [TokenMemory.triples_of_none hnode] at hcomplete
          exact absurd (List.eq_nil_of_length_eq_zero hcomplete.symm) hpatterns
      | some token =>
          obtain ⟨ts, hts⟩ := hstock.rooted.exists_spells hnode
          rw [hts.triples_eq, hts.length_eq hstock.rooted hnode] at hcomplete
          exact ⟨token, rfl, hcomplete⟩
    · rintro ⟨token, hnode, hlevel⟩
      exact he.ready r c id token hc hnode hlevel
  unconditional := by
    intro r c hc hpatterns
    obtain ⟨id, hone⟩ := he.unconditional r c hc hpatterns
    exact ⟨id, (hone id).2 rfl, fun j hj => (hone j).1 hj⟩

/-! ## Engines at work -/

/-- A request to an open engine has been granted. -/
inductive Requested (e : Engine MemoryGraph) : Engine MemoryGraph → Prop where
  | restart {e' : Engine MemoryGraph} : Work.restart e = .ok () e' → Requested e e'
  | add {t : Triple} {added : Bool} {e' : Engine MemoryGraph} :
      Work.addToBase t e = .ok added e' → Requested e e'
  | delete {t : Triple} {deleted : Bool} {e' : Engine MemoryGraph} :
      Work.deleteVisible t e = .ok deleted e' → Requested e e'
  | announce {event : Event} : Requested e (e.queue event)

/-- The engines that there are between two pieces of work, from the first time that the
conclusions were computed.  Within a run it is told how often activations have been
asked again; between the runs an engine is at rest, and its settings may change. -/
inductive Working (n : Network) : Option Nat → Engine MemoryGraph → Prop where
  | begun {e e' : Engine MemoryGraph} :
      Reached n e → Work.restart e = .ok () e' → Working n (some 0) e'
  | worked {rechecks more : Nat} {e e' : Engine MemoryGraph} :
      Working n (some rechecks) e → Work.step rechecks e = .ok (some more) e' →
      Working n (some more) e'
  | rested {rechecks : Nat} {e e' : Engine MemoryGraph} :
      Working n (some rechecks) e → Work.step rechecks e = .ok none e' →
      Working n none { e' with state := .idle }
  | requested {e e' : Engine MemoryGraph} :
      Working n none e → Requested e e' → Working n (some 0) e'
  | logging {e : Engine MemoryGraph} {on : Bool} :
      Working n none e → Working n none (e.setLogging on)
  | settings {e : Engine MemoryGraph} {traceFirings : Bool} {maxRechecks : Nat} {world : World} :
      Working n none e → Working n none { e with traceFirings, maxRechecks, world }

/-- What is known of an engine between two pieces of work. -/
structure Sober (n : Network) (e : Engine MemoryGraph) : Prop where
  steady : e.Steady
  thorough : e.Thorough
  network_eq : e.network = n

theorem Sober.of_agree (h : e.Sober n)
    (hagree : e' = { e with
      derivations := e'.derivations
      logging := e'.logging
      traceFirings := e'.traceFirings
      maxRechecks := e'.maxRechecks
      state := e'.state
      world := e'.world }) : e'.Sober n where
  steady := h.steady.of_agree (by rw [hagree])
  thorough := by
    rw [hagree]
    exact h.thorough.recast (sameMatches_of_memories_eq rfl rfl) (fun _ hu => Or.inl hu)
      fun _ hu _ => hu
  network_eq := by
    rw [hagree]
    exact h.network_eq

theorem sober_of_restart (hsteady : e.Steady) (hnetwork : e.network = n)
    (h : Work.restart e = .ok () e') : e'.Sober n := by
  obtain ⟨_, _, hdone, hrestarts⟩ := (Work.ends_restart hsteady.consistent.base).exists_ok
  rw [h] at hdone
  cases hdone
  have hconsistent := hsteady.consistent
  exact ⟨hrestarts.steady hconsistent.wired hconsistent.plain hsteady.tame hconsistent.base,
    hrestarts.thorough, hrestarts.network_eq.trans hnetwork⟩

theorem Sober.requested (h : e.Sober n) (hrequested : e.Requested e') : e'.Sober n := by
  have hconsistent := h.steady.consistent
  cases hrequested with
  | restart hwork => exact sober_of_restart h.steady h.network_eq hwork
  | @add t _ _ hwork =>
      cases ht : t.isGround with
      | false =>
          have hrefused := Work.addToBase_of_not_ground (e := e) ht
          rw [hwork] at hrefused
          cases hrefused
      | true =>
          obtain ⟨_, _, hdone, _, rfl⟩ := (Work.ends_addToBase hconsistent.base ht).exists_ok
          rw [hwork] at hdone
          cases hdone
          exact ⟨h.steady.expanded ht, h.thorough.expanded hconsistent.base ht, h.network_eq⟩
  | @delete t _ _ hwork =>
      obtain ⟨_, _, hdone, _, rfl⟩ :=
        (Work.ends_deleteVisible hconsistent.base hconsistent.deductions t).exists_ok
      rw [hwork] at hdone
      cases hdone
      refine ⟨h.steady.reduced t, h.thorough.reduced hconsistent.base hconsistent.deductions t, ?_⟩
      rw [← h.network_eq]
      unfold reduced
      split <;> split <;> rfl
  | announce => exact ⟨h.steady.queue _, h.thorough.queue _, h.network_eq⟩

theorem Sober.stepped (h : e.Sober n) (hovert : n.Overt) {rechecks : Nat} {answer : Option Nat}
    (hstepped : e.Stepped rechecks answer e') : e'.Sober n where
  steady := hstepped.steady h.steady
  thorough := by
    rw [← h.network_eq] at hovert
    exact h.thorough.stepped h.steady hovert hstepped
  network_eq := hstepped.network_eq.trans h.network_eq

theorem Working.sober {phase : Option Nat} (h : Working n phase e) (hwired : n.Wired)
    (hovert : n.Overt) (htame : n.Tame) : e.Sober n := by
  induction h with
  | begun hreached hwork =>
      have hresting := hreached.resting hwired hovert.plain htame
      exact sober_of_restart hresting.steady hresting.network_eq hwork
  | worked _ hwork ih => exact ih.stepped hovert (ih.steady.stepped hwork)
  | rested _ hwork ih => exact (ih.stepped hovert (ih.steady.stepped hwork)).of_agree rfl
  | requested _ hrequested ih => exact ih.requested hrequested
  | logging _ ih => exact ih.of_agree rfl
  | settings _ ih => exact ih.of_agree rfl

/-- At rest nothing waits. -/
theorem Working.quiet {phase : Option Nat} (h : Working n phase e) (hwired : n.Wired)
    (hovert : n.Overt) (htame : n.Tame) (hrest : phase = none) : e.Quiet := by
  induction h with
  | begun | worked | requested => cases hrest
  | rested hworking hwork _ =>
      have hquiet := ((hworking.sober hwired hovert htame).steady.stepped hwork).quiet
      exact ⟨hquiet.events, hquiet.agenda, hquiet.suspects⟩
  | logging _ ih | settings _ ih =>
      exact ⟨(ih hrest).events, (ih hrest).agenda, (ih hrest).suspects⟩

/-- A run that ends leaves an engine at rest. -/
theorem Working.run {budget rechecks : Nat} (h : Working n (some rechecks) e)
    (hdone : run budget rechecks e = .done () e') : Working n none e' := by
  induction budget generalizing rechecks e with
  | zero => cases hdone
  | succ budget ih =>
      unfold Engine.run at hdone
      cases hstep : Work.step rechecks e with
      | ok answer e₁ =>
          rw [hstep] at hdone
          cases answer with
          | none =>
              cases hdone
              exact .rested h hstep
          | some more => exact ih (.worked h hstep) hdone
      | error cause e₁ =>
          rw [hstep] at hdone
          cases hdone

/-- An operation that is done has had its request granted, and has then run. -/
theorem exists_run_of_operate {α : Type} {a : α} {budget : Nat} {request : Work MemoryGraph α}
    (hdone : e.operate budget request = .done a e') :
    ∃ b e₁, request e = .ok b e₁ ∧ Engine.run budget 0 e₁ = .done () e' := by
  unfold Engine.operate at hdone
  split at hdone
  · cases hdone
  · cases hwork : request e with
    | error cause e₁ =>
        rw [hwork] at hdone
        cases hdone
    | ok b e₁ =>
        simp only [hwork] at hdone
        refine ⟨b, e₁, rfl, ?_⟩
        cases hrun : Engine.run budget 0 e₁ with
        | done _ e₂ =>
            rw [hrun] at hdone
            cases hdone
            rfl
        | failed cause e₂ | unfinished =>
            rw [hrun] at hdone
            cases hdone

theorem Reached.working {budget : Nat} (h : Reached n e)
    (hdone : e.recompute budget = .done () e') : Working n none e' := by
  obtain ⟨_, e₁, hwork, hrun⟩ := exists_run_of_operate hdone
  exact (Working.begun h hwork).run hrun

/-- An operation that is done leaves an engine at rest. -/
theorem Working.operate {α : Type} {a : α} {budget : Nat} {request : Work MemoryGraph α}
    (h : Working n none e) (hrequest : ∀ b e₁, request e = .ok b e₁ → e.Requested e₁)
    (hdone : e.operate budget request = .done a e') : Working n none e' := by
  obtain ⟨b, e₁, hwork, hrun⟩ := exists_run_of_operate hdone
  exact (Working.requested h (hrequest b e₁ hwork)).run hrun

theorem Working.add {budget : Nat} {t : Triple} {answer : Bool} (h : Working n none e)
    (hdone : e.add budget t = .done answer e') : Working n none e' :=
  h.operate (fun _ _ => .add) hdone

theorem Working.delete {budget : Nat} {t : Triple} {answer : Bool} (h : Working n none e)
    (hdone : e.delete budget t = .done answer e') : Working n none e' :=
  h.operate (fun _ _ => .delete) hdone

/-- Whenever no event waits, and so whenever an activation fires and whenever an engine
is at rest, its memories are exact. -/
theorem exact_of_working {rules : List Rule}
    (hn : Network.compile rules Registry.standard = .ok n)
    (hmade : ∀ rule ∈ rules, ∃ name body head, rule = .make name body head .forward)
    (hdrop : ∀ rule ∈ rules, ∀ call, Clause.call call ∈ rule.head → ∀ b,
      Registry.standard.get? call.name = some b → b.name ≠ "drop")
    (hplain : ∀ rule ∈ rules, ∀ p, Clause.pattern p ∈ rule.body → p.hasPlainPredicate = true)
    {phase : Option Nat} (h : Working n phase e) (hmoment : phase = none ∨ e.events = []) :
    e.Exact := by
  have hwired := (Network.compile_eq_ok hn).1
  have hovert := Network.overt_of_plain hn hplain
  have htame := Network.tame_of_standard hn hdrop
  have hsober := h.sober hwired hovert htame
  have hevents : e.events = [] :=
    hmoment.elim (fun hrest => (h.quiet hwired hovert htame hrest).events) id
  refine hsober.thorough.exact hsober.steady.consistent ?_ hevents
  rw [hsober.network_eq]
  exact Network.slotted_of_made hn hmade

/-- The engine that has started without facts. -/
def started (n : Network) : Engine MemoryGraph :=
  let e := start n .empty
  (e.recompute 20).state?.getD e

theorem working_started (hdone : ((start n MemoryGraph.empty).recompute 20).isDone = true) :
    Working n none (started n) := by
  obtain ⟨_, hcomputed⟩ := Outcome.eq_done_of_isDone hdone (start n .empty)
  exact (Reached.start .empty).working hcomputed

theorem Working.add_done {budget : Nat} {t : Triple} (h : Working n none e)
    (hdone : (e.add budget t).isDone = true) :
    Working n none ((e.add budget t).state?.getD e) := by
  obtain ⟨_, hadded⟩ := Outcome.eq_done_of_isDone hdone e
  exact h.add hadded

/-- The engine that swaps subjects and objects, after one link was added. -/
def mirrored : Engine MemoryGraph :=
  ((started mirrorNetwork).add 20 link).state?.getD (started mirrorNetwork)

theorem working_mirrored : Working mirrorNetwork none mirrored :=
  (working_started (by decide +kernel)).add_done (by decide +kernel)

theorem rule?_mirrored :
    mirrored.network.rule? 0 = some (CompiledRule.ofRule Registry.standard mirroring) := by
  obtain ⟨hwired, _, hrules⟩ := Network.compile_eq_ok compile_mirroring
  have hsober : mirrored.Sober mirrorNetwork := by
    refine working_mirrored.sober hwired (Network.overt_of_plain compile_mirroring ?_)
      (Network.tame_of_standard compile_mirroring ?_)
    · intro rule hrule p hp
      obtain rfl := List.mem_singleton.1 hrule
      cases List.mem_singleton.1 hp
      rfl
    · intro rule hrule call hcall
      obtain rfl := List.mem_singleton.1 hrule
      cases List.mem_singleton.1 hcall
  rw [hsober.network_eq, Network.rule?, hrules]
  rfl

theorem exact_mirrored : mirrored.view.sees backlink = true ∧
    ∃! id, (mirrored.memory 0).Stores id [backlink] := by
  have hseen : mirrored.view.sees backlink = true := by decide +kernel
  have hexact : mirrored.Exact := by
    refine exact_of_working compile_mirroring ?_ ?_ ?_ working_mirrored (Or.inl rfl)
    · intro rule hrule
      obtain rfl := List.mem_singleton.1 hrule
      exact ⟨_, _, _, rfl⟩
    · intro rule hrule call hcall
      obtain rfl := List.mem_singleton.1 hrule
      cases List.mem_singleton.1 hcall
    · intro rule hrule p hp
      obtain rfl := List.mem_singleton.1 hrule
      cases List.mem_singleton.1 hp
      rfl
  have hp : (CompiledRule.ofRule Registry.standard mirroring).patterns[0]? =
      some (0, ⟨.var ⟨"x", 0⟩, .uri "p", .var ⟨"y", 1⟩⟩) := rfl
  refine ⟨hseen, hexact.stored 0 _ rule?_mirrored [backlink] (List.cons_ne_nil _ _)
    (by decide +kernel) ?_ ⟨fun i => if i = 0 then .uri "b" else .uri "a",
      (CompiledRule.fitEach_singleton hp).2 ?_⟩⟩
  · intro t ht
    obtain rfl := List.mem_singleton.1 ht
    exact hseen
  · have hsame : ∀ n : Node, (n == n) = true := fun _ => BEq.rfl
    exact ⟨hsame (.uri "b"), hsame (.uri "p"), hsame (.uri "a")⟩

example : mirrored.tokenCount = 2 := by decide +kernel

/-! ## An engine that misses a fact -/

/-- The predicate of the pattern is a functor with a wildcard in it. -/
def glimpsing : Rule :=
  .make none [.pattern ⟨.var ⟨"a", 0⟩, .functor "f" [.any], .var ⟨"c", 1⟩⟩]
    [.pattern ⟨.var ⟨"a", 0⟩, .uri "q", .var ⟨"c", 1⟩⟩] .forward

def glimpseNetwork : Network :=
  ((Network.compile [glimpsing] Registry.standard).toOption).getD default

def glimpsed : Engine MemoryGraph :=
  ((started glimpseNetwork).add 20 fact).state?.getD (started glimpseNetwork)

/-- Without plain predicates a fact in view may have no token. -/
theorem not_exact_glimpsed :
    Network.compile [glimpsing] Registry.standard = .ok glimpseNetwork ∧
      Working glimpseNetwork none glimpsed ∧ glimpsed.view.sees fact = true ∧
      (∃ σ, (CompiledRule.ofRule Registry.standard glimpsing).FitEach σ [fact]) ∧
      (∀ id, ¬ (glimpsed.memory 0).Stores id [fact]) := by
  have hempty : (glimpsed.memory 0).tokens.keys = [] := by decide +kernel
  have hp : (CompiledRule.ofRule Registry.standard glimpsing).patterns[0]? =
      some (0, ⟨.var ⟨"a", 0⟩, .functor "f" [.any], .var ⟨"c", 1⟩⟩) := rfl
  refine ⟨ok_getD_of_isSome (by decide +kernel),
    (working_started (by decide +kernel)).add_done (by decide +kernel), by decide +kernel,
    ⟨fun i => if i = 0 then .uri "s" else .uri "o",
      (CompiledRule.fitEach_singleton hp).2 ?_⟩,
    fun id hid => ?_⟩
  · have hsame : ∀ n : Node, (n == n) = true := fun _ => BEq.rfl
    exact ⟨hsame (.uri "s"), ⟨rfl, trivial, trivial⟩, hsame (.uri "o")⟩
  · have hnode : ((glimpsed.memory 0).node? id).isSome = true := by
      rw [TokenMemory.node?, Option.isSome_map]
      exact hid.1
    rw [TokenMemory.node?_isSome_iff, hempty] at hnode
    cases hnode

end Engine

end Entailment
