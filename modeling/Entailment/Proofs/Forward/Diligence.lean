import Entailment.Proofs.Forward.Prudence
import Entailment.Proofs.Rule.Instance

/-!
# Diligent engines

Where the head of every rule is determined by what its body matches, an engine leaves
nothing undone: every match is stored or expected, every complete match has a firing,
every firing is what the rule makes of the facts, and no deduction is without a firing
that holds it up, as in any prudent engine.
-/

namespace Entailment

/-! ## Rules of a network -/

namespace Network

/-- The heads of all rules are determined by their bodies, and their calls are fair.  What
is asked again can be asked without effect. -/
structure Elementary (n : Network) : Prop where
  rule : ∀ r c, n.rule? r = some c → c.rule.Elementary ∧ c.rule.Fair n.registry
  safe : ∀ r c, n.rule? r = some c → c.nonMonotonic = true → c.rule.Safe n.registry

theorem Wired.eq_ofRule {n : Network} (hn : n.Wired) {r : Nat} {c : CompiledRule}
    (hc : n.rule? r = some c) : c = CompiledRule.ofRule n.registry c.rule := by
  obtain ⟨rule, hrule, _⟩ := (hn.rule r c hc).compiled
  rw [hrule]
  rfl

/-- The levels of a compiled rule are the patterns of its body. -/
theorem Wired.pattern_mem {n : Network} (hn : n.Wired) {r : Nat} {c : CompiledRule}
    (hc : n.rule? r = some c) {level : Nat} {p : Nat × Triple}
    (hp : c.patterns[level]? = some p) : Clause.pattern p.2 ∈ c.rule.body := by
  rw [hn.eq_ofRule hc] at hp
  exact Rule.mem_patterns_iff.1 ⟨p.1, List.mem_of_getElem? hp⟩

theorem Wired.exists_level {n : Network} (hn : n.Wired) {r : Nat} {c : CompiledRule}
    (hc : n.rule? r = some c) {p : Triple} (hp : Clause.pattern p ∈ c.rule.body) :
    ∃ (level j : Nat), c.patterns[level]? = some (j, p) := by
  obtain ⟨j, hmem⟩ := Rule.mem_patterns_iff.2 hp
  obtain ⟨level, hlevel, hget⟩ := List.getElem_of_mem hmem
  refine ⟨level, j, ?_⟩
  rw [hn.eq_ofRule hc]
  exact (List.getElem?_eq_getElem hlevel).trans (congrArg some hget)

theorem Elementary.overt {n : Network} (hn : n.Elementary) (hwired : n.Wired) : n.Overt :=
  fun r c _ p hc hp => (hn.rule r c hc).1.plain p.2 (hwired.pattern_mem hc hp)

theorem Elementary.not_destructive {n : Network} (hn : n.Elementary) (hwired : n.Wired)
    {r : Nat} {c : CompiledRule} (hc : n.rule? r = some c) : c.destructive = false := by
  rw [hwired.eq_ofRule hc]
  refine List.any_eq_false.2 fun call hcall => ?_
  obtain ⟨clause, hclause, hsome⟩ := List.mem_filterMap.1 hcall
  obtain ⟨h, rfl, _⟩ := (hn.rule r c hc).1.head clause hclause
  cases hsome

theorem Elementary.callsHold_anywhere {n : Network} (hn : n.Elementary) (hwired : n.Wired)
    {r : Nat} {c : CompiledRule} (hc : n.rule? r = some c) (hmonotonic : c.nonMonotonic = false)
    {b : Bindings} (hb : b.Ground) (v v' : View MemoryGraph) :
    c.rule.CallsHold n.registry v b ↔ c.rule.CallsHold n.registry v' b := by
  refine (hn.rule r c hc).2.callsHold_anywhere ?_ hb
  rw [← hwired.eq_ofRule hc]
  exact hmonotonic

/-- Where the matched triples are made of the vocabulary, so are the values of the
variables. -/
theorem Wired.values {n : Network} (hn : n.Wired) {P : Node → Prop} (hP : Vocabulary P) {r : Nat}
    {c : CompiledRule} (hc : n.rule? r = some c) {ts : List Triple} {b : Bindings}
    (hmatches : c.Matches ts b) (hlength : ts.length = c.levels) (hts : ∀ t ∈ ts, t.MadeOf P) :
    ∀ i ∈ c.rule.boundIndexes, ∃ m, b.held? i = some m ∧ P m := by
  intro i hi
  obtain ⟨p, hp, hip⟩ := Rule.mem_boundIndexes_iff.1 hi
  obtain ⟨level, j, hpattern⟩ := hn.exists_level hc hp
  have hlt : level < ts.length := by
    rw [hlength]
    exact (List.getElem?_eq_some_iff.1 hpattern).1
  have hfits := hmatches.fits hpattern (List.getElem?_eq_getElem hlt)
  obtain ⟨m, hm⟩ := Option.isSome_iff_exists.1
    ((hmatches.held?_isSome_iff i).2 ⟨level, (j, p), hlt, hpattern, hip⟩)
  have hvalue := hP.of_triple_fits hfits (hts _ (List.getElem_mem hlt)) i hip
  rw [Bindings.assignment, hm] at hvalue
  exact ⟨m, hm, hvalue⟩

end Network

namespace Firing

/-- The firing is what the rule makes of the facts.  An answer that may change with the
view is left open. -/
def Proper (registry : Registry) (c : CompiledRule) (ts : List Triple) : Firing → Prop
  | .pending => True
  | .blocked => c.nonMonotonic = false → ∀ b (v : View MemoryGraph), c.Matches ts b →
      ¬ c.rule.CallsHold registry v b
  | .fired conclusions _ committed => committed = false ∧ ∀ b, c.Matches ts b →
      (c.nonMonotonic = false → ∀ v : View MemoryGraph, c.rule.CallsHold registry v b) ∧
      ∀ t, conclusions.any (· == t) = true ↔
        ∃ h, Clause.pattern h ∈ c.rule.head ∧ h.Fits b.assignment t

end Firing

namespace Engine

variable {e e' : Engine MemoryGraph} {P : Node → Prop}

/-- Nothing is left undone, apart from what waits. -/
structure Diligent (P : Node → Prop) (e : Engine MemoryGraph) : Prop extends Thorough e where
  waiting : ∀ a, e.firing? a = some .pending → a ∈ e.agenda
  proper : ∀ a c firing, e.network.rule? a.rule = some c → e.firing? a = some firing →
    firing.Proper e.network.registry c (e.matchedBy a)
  held : ∀ t, e.deductions.contains t = true → e.supporters t ≠ []
  uncommitted : ∀ t, e.committed.contains t = false
  madeOf : ∀ t, e.view.sees t = true → t.MadeOf P
  astray : ∀ a t, e.Astray a t → e.agenda = [] ∧ (∀ u, Event.added u ∉ e.events) ∧
    ∃ m ∈ e.matchedBy a, ¬ e.Grounded m

theorem Diligent.prudent (he : e.Diligent P) : e.Prudent where
  held t ht := Or.inl (he.held t ht)
  lasting t ht := by
    rw [he.uncommitted] at ht
    cases ht
  astray := he.astray

/-! ## Environments of complete matches -/

theorem Stocked.matches_of_bindings (he : e.Stocked) {a : Activation} {c : CompiledRule}
    (hc : e.network.rule? a.rule = some c) {firing : Firing} (ha : e.firing? a = some firing)
    {b : Bindings} (hb : c.bindings (e.matchedBy a) = .ok b) :
    c.Matches (e.matchedBy a) b ∧ (e.matchedBy a).length = c.levels := by
  obtain ⟨b', hb', hmatches⟩ := he.bindings_eq hc ha
  rw [hb] at hb'
  obtain ⟨d, hd, hlength, _⟩ := he.rule_of_firing ha
  rw [hc] at hd
  cases hd
  exact ⟨Except.ok.inj hb' ▸ hmatches, hlength⟩

/-- While no deletion waits, a firing has matched triples that are made of the
vocabulary, and so are the values of its variables. -/
theorem Diligent.values (he : e.Diligent P) (hP : Vocabulary P)
    (hconsistent : e.Consistent nothingGone) (hquiet : ∀ t, ¬ e.Announced t) {a : Activation} {c : CompiledRule} {b : Bindings}
    (hc : e.network.rule? a.rule = some c) (hmatches : c.Matches (e.matchedBy a) b)
    (hlength : (e.matchedBy a).length = c.levels) :
    ∀ i ∈ c.rule.boundIndexes, ∃ m, b.held? i = some m ∧ P m :=
  hconsistent.wired.values hP hc hmatches hlength fun _ ht =>
    he.madeOf _ (hconsistent.sees_of_mem_matchedBy hquiet ht)

/-! ## Changes of what waits -/

/-- What waits, and what is kept for reports, may change where no news that is in view
is lost, nothing is taken off the agenda that is pending, and nothing astray is joined by
more work. -/
theorem Diligent.requeue (he : e.Diligent P) {events : List Event} {agenda : List Activation}
    {suspects : OrderedSet Triple} {derivations : DerivationLog} {hidden : OrderedMap Node Nat}
    {logging traceFirings : Bool} {maxRechecks : Nat} {state : EngineState} {stats : EngineStats}
    {world : World}
    (hnews : ∀ t, Event.added t ∈ e.events → e.view.sees t = true → Event.added t ∈ events)
    (hwaiting : ∀ a ∈ e.agenda, e.firing? a = some .pending → a ∈ agenda)
    (hastray : ∀ a t, e.Astray a t → agenda = [] ∧ ∀ u, Event.added u ∉ events) :
    Diligent P { e with
      events, agenda, suspects, derivations, hidden, logging, traceFirings, maxRechecks, state,
      stats, world } where
  toThorough := he.recast (sameMatches_of_memories_eq rfl rfl) (fun _ hu => Or.inl hu) hnews
  waiting a ha := hwaiting a (he.waiting a ha) ha
  proper := he.proper
  held := he.held
  uncommitted := he.uncommitted
  madeOf := he.madeOf
  astray a t hat := by
    obtain ⟨_, _, hm⟩ := he.astray a t hat
    exact ⟨(hastray a t hat).1, (hastray a t hat).2, hm⟩

/-! ## Entering -/

theorem Diligent.enters (he : e.Diligent P) (hconsistent : e.Consistent nothingGone)
    (hovert : e.network.Overt) {t : Triple} {events : List Event}
    (hevents : e.events = .added t :: events) {stats : EngineStats}
    (henters : Enters t { e with events, state := .propagating, stats } e') : e'.Diligent P := by
  have hgrown := henters.grown
  have hstocked := hconsistent.stocked
  have hprudent := he.prudent.enters hevents henters
  have hcommitted : e'.committed = e.committed := by rw [hgrown.frame]
  have huncommitted : ∀ u, e'.committed.contains u = false := fun u => by
    rw [hcommitted]
    exact he.uncommitted u
  constructor
  case toThorough => exact he.toThorough.enters hconsistent hovert hevents henters
  case waiting =>
    intro a ha
    rcases hgrown.scheduled a _ ha with hold | ⟨_, hmem, _⟩
    · exact hgrown.agenda a (he.waiting a hold)
    · exact hmem
  case proper =>
    intro a c firing hc ha
    rw [hgrown.network_eq] at hc ⊢
    rcases hgrown.scheduled a _ ha with hold | ⟨rfl, _⟩
    · have hlt : a.token < e.nextToken := (hstocked.2 a.rule).firing_lt a.token firing hold
      have hmatched : e'.matchedBy a = e.matchedBy a := hgrown.matchedBy_eq hstocked hlt
      rw [hmatched]
      exact he.proper a c firing hc hold
    · exact trivial
  case held => exact fun u hu => hprudent.held_of_uncommitted huncommitted hu
  case uncommitted => exact huncommitted
  case madeOf =>
    intro u hu
    rw [hgrown.view_eq] at hu
    exact he.madeOf u hu
  case astray => exact hprudent.astray

/-! ## Losing tokens -/

/-- An engine stays diligent when it loses the tokens that hold a triple out of view. -/
theorem Diligent.survives (P : Node → Prop) (t : Triple) :
    Work.SurvivesLoss (Diligent P) t := by
  intro e e' gone rule c hconsistent hbacked hc hunseen hrecedes habandons hbacked' he
  have hstocked := hconsistent.stocked
  have hmemory : ∀ r, e'.memory r = (e.cleared rule t).memory r := hrecedes.memory_eq
  have hnetwork : e'.network = e.network := hrecedes.network_eq
  have hsees : ∀ u, e'.view.sees u = true → e.view.sees u = true := fun u hu => hrecedes.sees hu
  have hfiring : ∀ a, e'.firing? a = (e.cleared rule t).firing? a := by
    intro a
    unfold firing?
    rw [hmemory]
  have hmatched : ∀ a, e'.matchedBy a = (e.cleared rule t).matchedBy a := by
    intro a
    unfold matchedBy
    rw [hmemory]
  have hprudent := Prudent.survives t e e' gone rule c hconsistent hbacked hc hunseen hrecedes
    habandons hbacked' he.prudent
  have huncommitted : ∀ u, e'.committed.contains u = false := fun u => by
    rw [hrecedes.committed_eq]
    exact he.uncommitted u
  constructor
  case toThorough =>
    exact Thorough.survives t e e' gone rule c hconsistent hbacked hc hunseen hrecedes habandons
      hbacked' he.toThorough
  case waiting =>
    intro a ha
    rw [hfiring] at ha
    have hagenda : e'.agenda = e.agenda := by rw [hrecedes.frame]; rfl
    rw [hagenda]
    exact he.waiting a (firing?_cleared hstocked hc ha).1
  case proper =>
    intro a d firing hd ha
    rw [hfiring] at ha
    rw [hnetwork] at hd ⊢
    obtain ⟨hold, hsame⟩ := firing?_cleared hstocked hc ha
    rw [hmatched, hsame]
    exact he.proper a d firing hd hold
  case held => exact fun u hu => hprudent.held_of_uncommitted huncommitted hu
  case uncommitted => exact huncommitted
  case madeOf => exact fun u hu => he.madeOf u (hsees u hu)
  case astray => exact hprudent.astray

/-! ## Replacing a firing -/

namespace Replaces

variable {a : Activation} {new : Firing} {r : Nat}

theorem waiting (h : e.Replaces e' a new) (ha : a.rule < e.memories.length) (he : e.Diligent P)
    (hnew : new = .pending → a ∈ e'.agenda) (hagenda : ∀ b ∈ e.agenda, b ≠ a → b ∈ e'.agenda) :
    ∀ b, e'.firing? b = some .pending → b ∈ e'.agenda := by
  intro b hb
  rw [h.firing?_eq ha] at hb
  by_cases hsame : a = b
  · rw [if_pos hsame] at hb
    exact hsame ▸ hnew (Option.some.inj hb)
  · rw [if_neg hsame] at hb
    exact hagenda b (he.waiting b hb) (Ne.symm hsame)

theorem proper (h : e.Replaces e' a new) (ha : a.rule < e.memories.length) (he : e.Diligent P)
    {c : CompiledRule} (hc : e.network.rule? a.rule = some c)
    (hnew : new.Proper e.network.registry c (e.matchedBy a)) :
    ∀ b d firing, e'.network.rule? b.rule = some d → e'.firing? b = some firing →
      firing.Proper e'.network.registry d (e'.matchedBy b) := by
  intro b d firing hd hb
  rw [h.network_eq] at hd ⊢
  rw [h.matchedBy_eq ha]
  rw [h.firing?_eq ha] at hb
  by_cases hsame : a = b
  · subst hsame
    rw [if_pos rfl] at hb
    cases hb
    rw [hc] at hd
    cases hd
    exact hnew
  · rw [if_neg hsame] at hb
    exact he.proper b d firing hd hb

end Replaces

end Engine

end Entailment
