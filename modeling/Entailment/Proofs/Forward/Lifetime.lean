import Entailment.Proofs.Forward.Modesty
import Entailment.Proofs.Forward.Recording

/-!
# Derivations last as long as their conclusions

Where no rule removes or drops what it has matched and no two rules are equal, the log of
an engine at rest has derivations of what is deduced, and of nothing else.  An activation
can be told from its derivations, since tokens of one rule differ in what they have
matched.  It matches the same as long as it is there, so from one piece of work to the next
the log can be read by what activations have matched then.
-/

namespace Entailment

/-! ## Rules that remove nothing -/

/-- What has been asked to be removed, and what to be dropped. -/
def Effects.requests (effects : Effects) : List Triple × List Triple :=
  (effects.removed, effects.dropped)

theorem Builtin.Inquires.requests_eq {b : Builtin} (hb : b.Inquires) (ctx : CallContext)
    (args : List Node) (st : CallState) :
    (b.body ctx args st).2.effects.requests = st.effects.requests :=
  Prod.ext (hb.removed ctx args st) (hb.dropped ctx args st)

theorem requests_allHold {ask : Call → CallState → Bool × CallState} {calls : List Call}
    (hask : ∀ c ∈ calls, ∀ st, (ask c st).2.effects.requests = st.effects.requests)
    (st : CallState) : (allHold ask calls st).2.effects.requests = st.effects.requests := by
  induction calls generalizing st with
  | nil => rfl
  | cons c calls ih =>
      have hfirst := hask c List.mem_cons_self st
      unfold allHold
      cases hanswer : ask c st with
      | mk held st₁ =>
          rw [hanswer] at hfirst
          cases held with
          | true => exact (ih (fun d hd => hask d (List.mem_cons_of_mem _ hd)) st₁).trans hfirst
          | false => exact hfirst

theorem requests_conclude {registry : Registry} {ctx : CallContext} {rule : Rule}
    (hhead : ∀ call, Clause.call call ∈ rule.head →
      ∀ st, (call.act registry ctx st).effects.requests = st.effects.requests)
    (st : CallState) :
    (rule.conclude registry ctx st).2.effects.requests = st.effects.requests := by
  have hfold : ∀ (clauses : List Clause), (∀ clause ∈ clauses, clause ∈ rule.head) →
      ∀ drawn : OrderedSet Triple × CallState,
        (clauses.foldl (Clause.carryOut registry ctx) drawn).2.effects.requests =
          drawn.2.effects.requests := by
    intro clauses hclauses
    induction clauses with
    | nil => exact fun _ => rfl
    | cons clause clauses ih =>
        intro drawn
        rw [List.foldl_cons, ih fun d hd => hclauses d (List.mem_cons_of_mem _ hd)]
        cases clause with
        | pattern t => rfl
        | call c => exact hhead c (hclauses _ List.mem_cons_self) drawn.2
  exact hfold rule.head (fun _ h => h) (.empty, st)

/-- The head calls monotonic builtins only. -/
def Rule.Sparing (registry : Registry) (r : Rule) : Prop :=
  ∀ c, Clause.call c ∈ r.head → ∀ b, registry.get? c.name = some b → b.monotonic = true

theorem CompiledRule.destructive_eq_false_iff {registry : Registry} {r : Rule} :
    (ofRule registry r).destructive = false ↔ r.Sparing registry := by
  have hcall : ∀ c, isNonMonotonic registry c = false ↔
      ∀ b, registry.get? c.name = some b → b.monotonic = true := by
    intro c
    unfold isNonMonotonic
    cases registry.get? c.name <;> simp
  change (r.head.filterMap Clause.call?).any (isNonMonotonic registry) = false ↔ _
  rw [List.any_eq_false]
  constructor
  · intro h c hc
    exact (hcall c).1 (Bool.eq_false_iff.2 (h c (List.mem_filterMap.2 ⟨_, hc, rfl⟩)))
  · intro h c hc
    obtain ⟨clause, hclause, hsome⟩ := List.mem_filterMap.1 hc
    cases clause with
    | pattern p => cases hsome
    | call d =>
        obtain rfl := Option.some.inj hsome
        exact Bool.eq_false_iff.1 ((hcall d).2 (h d hclause))

/-- No monotonic standard builtin takes facts away. -/
theorem Rule.Sparing.kept {r : Rule} (h : r.Sparing Registry.standard) :
    ∀ c, Clause.call c ∈ r.head → ∀ b, Registry.standard.get? c.name = some b →
      b.name ≠ "remove" ∧ b.name ≠ "drop" := by
  intro c hc b hb
  rw [← not_or]
  intro hname
  have hnot := Builtin.monotonic_eq_false_of_name b (Registry.mem_standard hb) hname
  rw [h c hc b hb] at hnot
  cases hnot

namespace Network

variable {n : Network}

/-- A network is mild if its bodies only inquire and its heads remove and drop nothing. -/
theorem mild_of_requests
    (hbody : ∀ r c, n.rule? r = some c → ∀ call ∈ c.calls, ∀ b,
      n.registry.get? call.name = some b → b.Inquires)
    (hhead : ∀ r c, n.rule? r = some c → ∀ call, Clause.call call ∈ c.rule.head → ∀ b,
      n.registry.get? call.name = some b → ∀ (ctx : CallContext) args (st : CallState),
        (b.head ctx args st).2.effects.requests = st.effects.requests) : n.Mild := by
  intro r c hc ctx st st' conclusions heffects hevaluate
  have hasked : (allHold (fun call st => call.holds n.registry ctx st) c.calls
      st).2.effects.requests = st.effects.requests := by
    refine requests_allHold (fun call hcall st => ?_) st
    unfold Call.holds
    cases hb : n.registry.get? call.name with
    | none => rfl
    | some b => exact (hbody r c hc call hcall b hb).requests_eq ctx _ st
  unfold CompiledRule.evaluate at hevaluate
  cases hanswer : allHold (fun call st => call.holds n.registry ctx st) c.calls st with
  | mk held st₁ =>
      rw [hanswer] at hasked hevaluate
      cases held with
      | false => cases hevaluate
      | true =>
          have hdrawn : (c.rule.conclude n.registry ctx st₁).2.effects.requests =
              st₁.effects.requests := by
            refine requests_conclude (fun call hcall st => ?_) st₁
            unfold Call.act
            cases hb : n.registry.get? call.name with
            | none => rfl
            | some b => exact hhead r c hc call hcall b hb ctx _ st
          obtain ⟨_, rfl⟩ := Prod.mk.inj hevaluate
          rw [hasked, heffects] at hdrawn
          exact Prod.mk.inj hdrawn

/-- Compiled with the standard builtins, rules are mild if no head removes or drops. -/
theorem mild_of_standard {rules : List Rule} (hn : compile rules Registry.standard = .ok n)
    (hkept : ∀ rule ∈ rules, ∀ call, Clause.call call ∈ rule.head → ∀ b,
      Registry.standard.get? call.name = some b → b.name ≠ "remove" ∧ b.name ≠ "drop") :
    n.Mild := by
  obtain ⟨_, hregistry, _⟩ := compile_eq_ok hn
  refine mild_of_requests (fun r c _ call _ b hb => ?_) fun r c hc call hcall b hb ctx args st => ?_
  · rw [hregistry] at hb
    exact Builtin.inquires_of_mem_standard b (Registry.mem_standard hb)
  · rw [hregistry] at hb
    obtain ⟨rule, hrule, rfl⟩ := exists_rule_of_rule? hn hc
    obtain ⟨hremove, hdrop⟩ := hkept rule hrule call hcall b hb
    have hmem := Registry.mem_standard hb
    rw [Builtin.head_eq_body_of_mem_standard b hmem hremove hdrop]
    exact (Builtin.inquires_of_mem_standard b hmem).requests_eq ctx args st

/-- Rules that are all different are compiled to rules that are. -/
theorem diverse_of_compile {rules : List Rule} {registry : Registry}
    (hn : compile rules registry = .ok n)
    (hdistinct : rules.Pairwise fun r s => (r == s) = false) : n.Diverse := by
  obtain ⟨_, _, hrules⟩ := compile_eq_ok hn
  have hplace : ∀ r c, n.rule? r = some c → ∃ rule, rules[r]? = some rule ∧ c.rule = rule := by
    intro r c hc
    rw [rule?, hrules, List.getElem?_map] at hc
    obtain ⟨rule, hrule, rfl⟩ := Option.map_eq_some_iff.1 hc
    exact ⟨rule, hrule, rfl⟩
  intro r s c d hc hd hsame
  obtain ⟨rule, hfirst, hrule⟩ := hplace r c hc
  obtain ⟨other, hsecond, hother⟩ := hplace s d hd
  obtain ⟨hr, rfl⟩ := List.getElem?_eq_some_iff.1 hfirst
  obtain ⟨hs, rfl⟩ := List.getElem?_eq_some_iff.1 hsecond
  rw [hrule, hother] at hsame
  rw [List.pairwise_iff_getElem] at hdistinct
  rcases Nat.lt_trichotomy r s with hlt | heq | hlt
  · rw [hdistinct r s hr hs hlt] at hsame
    cases hsame
  · exact heq
  · rw [BEq.comm, hdistinct s r hs hr hlt] at hsame
    cases hsame

/-- The rules of the network are compiled and all different, and remove nothing. -/
structure Apt (n : Network) : Prop where
  compiled : ∀ r c, n.rule? r = some c → ∃ registry rule, c = CompiledRule.ofRule registry rule
  diverse : n.Diverse
  mild : n.Mild

end Network

namespace Engine

variable {e e' e'' : Engine MemoryGraph} {n : Network}

/-- The activation waits, is blocked or has fired. -/
def Alive (e : Engine MemoryGraph) (a : Activation) : Prop := ∃ firing, e.firing? a = some firing

/-- A rule without patterns has one activation at most. -/
def Lone (e : Engine MemoryGraph) : Prop :=
  ∀ r c, e.network.rule? r = some c → c.patterns = [] →
    ∀ i j, e.Alive ⟨r, i⟩ → e.Alive ⟨r, j⟩ → i = j

/-! ## Telling activations apart -/

theorem Stocked.spells_matchedBy (he : e.Stocked) {a : Activation} (h : e.matchedBy a ≠ []) :
    (e.memory a.rule).Spells (some a.token) (e.matchedBy a) := by
  cases hnode : (e.memory a.rule).node? a.token with
  | none => exact absurd (TokenMemory.triples_of_none hnode) h
  | some token =>
      obtain ⟨ts, hts⟩ := (he.2 a.rule).rooted.exists_spells hnode
      rw [matchedBy, hts.triples_eq]
      exact hts

/-- Where no two rules are equal, an activation can be told from a derivation of its. -/
theorem Stocked.told (he : e.Stocked) (hlone : e.Lone) (hapt : e.network.Apt) :
    Told e.network e.matchedBy e.Alive := by
  rintro ⟨r, i⟩ ⟨s, j⟩ c d t halive halive' hc hd hsame
  obtain ⟨_, hrule, hmatched⟩ := Derivation.beq_iff.1 hsame
  obtain rfl : r = s := hapt.diverse r s c d hc hd hrule
  obtain rfl : c = d := Option.some.inj (hc.symm.trans hd)
  by_cases hpatterns : c.patterns = []
  · rw [hlone r c hc hpatterns i j halive halive']
  · obtain ⟨firing, hfiring⟩ := halive
    obtain ⟨firing', hfiring'⟩ := halive'
    have hlength := ((he.2 r).firing c hc i firing hfiring).1
    have hlength' := ((he.2 r).firing c hc j firing' hfiring').1
    have hlevels : c.levels ≠ 0 := fun h => hpatterns (List.length_eq_zero_iff.1 h)
    have hone : e.matchedBy ⟨r, i⟩ ≠ [] := fun h => hlevels (hlength ▸ congrArg List.length h)
    have hother : e.matchedBy ⟨r, j⟩ ≠ [] := fun h => hlevels (hlength' ▸ congrArg List.length h)
    obtain ⟨registry, rule, hrule⟩ := hapt.compiled r c hc
    have hequal := CompiledRule.matched_inj hrule hlength hlength' hmatched
    have hplace := (he.spells_matchedBy hone).place_unique (he.2 r).indexed
      (he.spells_matchedBy hother) (list_beq_iff_map_folded.1 hequal)
    obtain rfl : i = j := Option.some.inj hplace
    rfl

/-! ## What activations keep -/

/-- What is alive afterwards was alive before, and has matched the same. -/
def Retains (e e' : Engine MemoryGraph) : Prop :=
  ∀ a, e'.Alive a → e.Alive a ∧ e'.matchedBy a = e.matchedBy a

/-- What is alive afterwards and was not before is of a rule with patterns. -/
def Inherits (e e' : Engine MemoryGraph) : Prop :=
  ∀ a, e'.Alive a → e.Alive a ∧ e'.matchedBy a = e.matchedBy a ∨
    ¬ e.Alive a ∧ ∀ c, e.network.rule? a.rule = some c → c.patterns ≠ []

theorem Retains.refl : e.Retains e := fun _ ha => ⟨ha, rfl⟩

theorem Retains.trans (h : e.Retains e') (k : e'.Retains e'') : e.Retains e'' := fun a ha =>
  have hlast := k a ha
  have hfirst := h a hlast.1
  ⟨hfirst.1, hlast.2.trans hfirst.2⟩

theorem Retains.inherits (h : e.Retains e') : e.Inherits e' := fun a ha => Or.inl (h a ha)

/-- What still holds something up is still there, and has matched what it had. -/
theorem Inherits.of_supporter (h : e.Inherits e') (hbacked : e'.Backed) {a : Activation}
    {t : Triple} (ha : a ∈ e'.supporters t) (halive : e.Alive a) :
    e'.Alive a ∧ e'.matchedBy a = e.matchedBy a := by
  obtain ⟨firing, hfiring, _⟩ := (hbacked t a).1 ha
  rcases h a ⟨firing, hfiring⟩ with ⟨_, hmatched⟩ | ⟨hdead, _⟩
  · exact ⟨⟨firing, hfiring⟩, hmatched⟩
  · exact absurd halive hdead

theorem retains_of_memories_eq (h : e'.memories = e.memories) : e.Retains e' := fun a ha =>
  ⟨ha.imp fun _ hfiring => (firing?_of_memories_eq h).symm.trans hfiring,
    matchedBy_of_memories_eq h a⟩

/-- An activation that was there before gets another firing. -/
theorem Replaces.retains {a : Activation} {old new : Firing} (h : e.Replaces e' a new)
    (ha : e.firing? a = some old) : e.Retains e' := by
  have hlt : a.rule < e.memories.length := lt_length_of_firing ha
  intro b ⟨firing, hb⟩
  refine ⟨?_, h.matchedBy_eq hlt b⟩
  rw [h.firing?_eq hlt] at hb
  split at hb
  · rename_i hab
    exact ⟨old, hab ▸ ha⟩
  · exact ⟨firing, hb⟩

theorem Retains.survives (t : Triple) : Work.SurvivesLoss (Retains e) t := by
  intro e₁ e₂ gone rule c hconsistent _ hc _ hrecedes _ _ hkept
  refine hkept.trans fun a ⟨firing, ha⟩ => ?_
  rw [firing?_of_memories_eq hrecedes.memories_eq] at ha
  obtain ⟨hbefore, hmatched⟩ := firing?_cleared hconsistent.stocked hc ha
  exact ⟨⟨firing, hbefore⟩, (matchedBy_of_memories_eq hrecedes.memories_eq a).trans hmatched⟩

theorem Extends.inherits (h : e.Extends e') (he : e.Stocked) : e.Inherits e' := by
  intro a ⟨firing, ha⟩
  rcases h.scheduled a firing ha with hold | ⟨_, _, hnew, token, hnode⟩
  · exact Or.inl ⟨⟨firing, hold⟩, h.matchedBy_eq he ((he.2 a.rule).firing_lt a.token firing hold)⟩
  · refine Or.inr ⟨fun ⟨old, hold⟩ => ?_, fun c hc hpatterns => ?_⟩
    · exact absurd ((he.2 a.rule).firing_lt a.token old hold) (Nat.not_lt_of_le hnew)
    · rw [h.stocked.node?_of_no_patterns (h.network_eq ▸ hc) hpatterns] at hnode
      cases hnode

theorem Fired.retains {a : Activation} {agenda : List Activation} {state : EngineState}
    (h : Fired { e with agenda, state } a e') : e.Retains e' := by
  cases h with
  | stale => exact retains_of_memories_eq rfl
  | blocked ha _ _ _ heq =>
      have hreplaces : e.Replaces e' a .blocked := by
        rw [heq]
        exact ⟨rfl, rfl⟩
      exact hreplaces.retains ha
  | @drawn c b st conclusions e₀ e₁ e' ha _ _ _ hnoted hadopts hpurges =>
      have hreplaces : e.Replaces e' a (.fired conclusions st.effects.hidden c.destructive) := by
        rw [hpurges.frame, hadopts.frame, hnoted]
        exact ⟨rfl, rfl⟩
      exact hreplaces.retains ha

theorem Reconsidered.retains {a : Activation} {c : CompiledRule} {firing : Firing}
    {fired answer : Bool} (h : e.Reconsidered c a fired answer e')
    (ha : e.firing? a = some firing) : e.Retains e' := by
  cases h with
  | same _ _ heq =>
      rw [heq]
      exact retains_of_memories_eq rfl
  | taken _ hblocked hrecedes _ _ =>
      have hreplaces : e.Replaces e' a .blocked := by
        rw [hrecedes.frame, hblocked]
        exact ⟨rfl, rfl⟩
      exact hreplaces.retains ha
  | again _ heq =>
      have hreplaces : e.Replaces e' a .pending := by
        rw [heq]
        exact ⟨rfl, rfl⟩
      exact hreplaces.retains ha

theorem Reasked.retains {asked : List Activation} {changed : Bool}
    (h : e.Reasked asked changed e') : e.Retains e' := by
  induction h with
  | none => exact .refl
  | next _ _ _ ha _ hreconsidered ih => exact ih.trans (hreconsidered.retains ha)

/-- A piece of work adds activations only of rules with patterns, and those that are still
there have matched what they had. -/
theorem Stepped.inherits {rechecks : Nat} {answer : Option Nat}
    (h : e.Stepped rechecks answer e') (he : e.Steady) : e.Inherits e' := by
  cases h with
  | late _ _ => exact (retains_of_memories_eq rfl).inherits
  | @entered t events stats _ _ henters =>
      have hstocked : Stocked { e with events, state := .propagating, stats } :=
        he.consistent.stocked
      exact henters.grown.inherits hstocked
  | back _ _ => exact (retains_of_memories_eq rfl).inherits
  | left _ _ hforgets _ _ =>
      exact (hforgets.survives (Retains.survives _) (retains_of_memories_eq rfl)).inherits
  | fired _ _ hfired => exact hfired.retains.inherits
  | reviewed _ _ _ hreviewed =>
      rcases hreviewed with ⟨heq, _⟩ | ⟨heq, _⟩
      · exact (retains_of_memories_eq (by rw [heq])).inherits
      · exact (retains_of_memories_eq (by rw [heq]; rfl)).inherits
  | settled => exact Retains.refl.inherits
  | changed _ _ hreasked =>
      exact ((retains_of_memories_eq rfl).trans hreasked.retains).inherits
  | upheld _ _ => exact (retains_of_memories_eq rfl).inherits

/-! ## Recorded engines -/

/-- The log tells the firings that hold something up, by what they have matched. -/
structure Recorded (e : Engine MemoryGraph) : Prop where
  logged : e.Logged e.network e.matchedBy e.Alive
  lone : e.Lone

namespace Recorded

theorem of_proofs (he : e.Recorded) (hnetwork : e'.network = e.network)
    (hmemories : e'.memories = e.memories) (hsupport : e'.support = e.support)
    (hcommitted : e'.committed = e.committed) (hderivations : e'.derivations = e.derivations)
    (hlogging : e'.logging = e.logging) : e'.Recorded where
  logged := by
    rw [hnetwork]
    refine (Logged.ofProofs e e' hnetwork hsupport hcommitted hderivations hlogging
      he.logged).retell fun t a ha => ⟨?_, matchedBy_of_memories_eq hmemories a⟩
    rw [supporters, hsupport] at ha
    obtain ⟨firing, hfiring⟩ := (he.logged.supporter t a ha).1
    exact ⟨firing, (firing?_of_memories_eq hmemories).trans hfiring⟩
  lone r c hc hpatterns i j hi hj :=
    he.lone r c (hnetwork ▸ hc) hpatterns i j (retains_of_memories_eq hmemories _ hi).1
      (retains_of_memories_eq hmemories _ hj).1

/-- A piece of work keeps an engine recorded. -/
theorem stepped (he : e.Recorded) (hsteady : e.Steady) (hapt : e.network.Apt) {rechecks : Nat}
    {answer : Option Nat} (h : Work.step rechecks e = .ok answer e') : e'.Recorded := by
  have hstepped := hsteady.stepped h
  have hnetwork := hstepped.network_eq
  have hinherits := hstepped.inherits hsteady
  have hbacked := (hstepped.steady hsteady).backed
  have htold := hsteady.consistent.stocked.told he.lone hapt
  have hlogged := Work.leaves_step_logged he.logged htold hapt.diverse hapt.mild (fun _ => rfl)
    (fun _ firing ha => ⟨firing, ha⟩) rechecks answer e' h
  constructor
  case logged =>
    rw [hnetwork]
    exact hlogged.retell fun t a ha =>
      hinherits.of_supporter hbacked ha (hlogged.supporter t a ha).1
  case lone =>
    intro r c hc hpatterns i j hi hj
    rw [hnetwork] at hc
    have hbefore : ∀ id, e'.Alive ⟨r, id⟩ → e.Alive ⟨r, id⟩ := fun id hid =>
      (hinherits ⟨r, id⟩ hid).elim And.left fun hnew => absurd hpatterns (hnew.2 c hc)
    exact he.lone r c hc hpatterns i j (hbefore i hi) (hbefore j hj)

/-- An engine that has concluded nothing has recorded nothing. -/
theorem of_empty (hlogging : e.logging = true) (hsupport : e.support = .empty)
    (hcommitted : e.committed = .empty) (hderivations : e.derivations = .empty)
    (hlone : e.Lone) : e.Recorded where
  logged := by
    have hnone : ∀ {t a}, a ∉ e.supporters t := fun {t a} ha => by
      rw [supporters, hsupport] at ha
      cases ha
    refine ⟨rfl, hlogging, fun t a ha => absurd ha hnone, fun t a ha => absurd ha hnone, ?_, ?_⟩
    · intro t d hd
      rw [hderivations] at hd
      cases hd
    · intro t ht
      rw [hcommitted] at ht
      cases ht
  lone := hlone

theorem restarted (hlogging : e.logging = true) (h : e.Restarts e') : e'.Recorded := by
  refine of_empty ?_ ?_ ?_ ?_ fun r c hc hpatterns i j hi hj => ?_
  · rw [h.frame]
    exact hlogging
  · rw [h.frame]
    rfl
  · rw [h.frame]
    rfl
  · rw [h.frame]
    rfl
  · obtain ⟨id, hid⟩ := h.unconditional r c hc hpatterns
    rw [(hid i).1 hi, (hid j).1 hj]

end Recorded

/-! ## Histories -/

/-- The engines that operations lead to while derivations are recorded, where nothing is
deleted that is only deduced. -/
inductive Documented (n : Network) : Engine MemoryGraph → Prop where
  | start {base : MemoryGraph} : base.Reachable → Documented n ((start n base).setLogging true)
  | recomputed {e e' : Engine MemoryGraph} {budget : Nat} :
      Documented n e → (e.recompute budget).state? = some e' → Documented n e'
  | added {e e' : Engine MemoryGraph} {budget : Nat} {t : Triple} :
      Documented n e → (e.add budget t).state? = some e' → Documented n e'
  | deleted {e e' : Engine MemoryGraph} {budget : Nat} {t : Triple} :
      Documented n e → e.base.contains t = true ∨ e.deductions.contains t = false →
      (e.delete budget t).state? = some e' → Documented n e'
  | announced {e e' : Engine MemoryGraph} {budget : Nat} {event : Event} :
      Documented n e → (e.announce budget event).state? = some e' → Documented n e'
  | settings {e : Engine MemoryGraph} {traceFirings : Bool} {maxRechecks : Nat} {world : World} :
      Documented n e → Documented n { e with traceFirings, maxRechecks, world }

theorem Documented.reached (h : Documented n e) : Reached n e := by
  induction h with
  | start hbase => exact .logging (.start hbase)
  | recomputed _ hleaves ih => exact ih.recomputed hleaves
  | added _ hleaves ih => exact ih.added hleaves
  | deleted _ _ hleaves ih => exact ih.deleted hleaves
  | announced _ hleaves ih => exact ih.announced hleaves
  | settings _ ih => exact ih.settings

/-- What holds of such an engine besides that it is at rest. -/
structure Explained (n : Network) (e : Engine MemoryGraph) : Prop where
  network_eq : e.network = n
  prudent : e.Prudent
  recorded : e.Recorded

namespace Explained

/-- What waits, and what is kept for reports, may change where nothing is astray. -/
theorem recast (he : e.Explained n) (hnone : ∀ a t, ¬ e.Astray a t) {events : List Event}
    {suspects : OrderedSet Triple} {traceFirings : Bool} {maxRechecks : Nat}
    {state : EngineState} {world : World} :
    Explained n { e with events, suspects, traceFirings, maxRechecks, state, world } where
  network_eq := he.network_eq
  prudent := he.prudent.requeue fun a t h => absurd h (hnone a t)
  recorded := he.recorded.of_proofs rfl rfl rfl rfl rfl rfl

theorem reduced (he : e.Explained n) (hsound : e.deductions.Sound) (hnone : ∀ a u, ¬ e.Astray a u)
    {t : Triple} (ht : e.base.contains t = true ∨ e.deductions.contains t = false) :
    (e.reduced t).Explained n := by
  have hprudent : (e.reduced t).Prudent := he.prudent.reduced hsound hnone <| by
    change _ ∨ (e.base.contains t || e.deductions.contains t) = false
    rcases ht with hbase | hdeduced
    · exact Or.inl hbase
    · rw [hdeduced, Bool.or_false]
      exact Bool.eq_false_or_eq_true _
  have hrecorded : ∀ {base : MemoryGraph} {events : List Event} {suspects : OrderedSet Triple}
      {deductions : MemoryGraph}, Recorded { e with base, events, suspects, deductions } :=
    he.recorded.of_proofs rfl rfl rfl rfl rfl rfl
  revert hprudent
  unfold Engine.reduced
  split
  · split <;> exact fun hprudent => ⟨he.network_eq, hprudent, hrecorded⟩
  · rename_i hbase
    rw [if_neg (by rw [ht.resolve_left hbase]; exact Bool.false_ne_true)]
    exact fun hprudent => ⟨he.network_eq, hprudent, hrecorded⟩

theorem stepped (he : e.Explained n) (hsteady : e.Steady) (hapt : n.Apt) {rechecks : Nat}
    {answer : Option Nat} (h : Work.step rechecks e = .ok answer e') : e'.Explained n := by
  have hstepped := hsteady.stepped h
  have hapt' : e.network.Apt := he.network_eq ▸ hapt
  exact ⟨hstepped.network_eq.trans he.network_eq,
    he.prudent.stepped hsteady hapt'.mild hstepped, he.recorded.stepped hsteady hapt' h⟩

theorem preserved (hapt : n.Apt) : Preserved (Explained n) where
  step hsteady he h := he.stepped hsteady hapt h
  rest hsteady hquiet he := he.recast (he.prudent.not_astray hsteady hquiet)

theorem of_start (n : Network) (base : MemoryGraph) :
    ((start n base).setLogging true).Explained n := by
  have hdead : ∀ a, ¬ ((start n base).setLogging true).Alive a := by
    rintro a ⟨firing, ha⟩
    have hmemory : ((start n base).setLogging true).memory a.rule = .empty :=
      Work.memory_reset (start n base) a.rule
    rw [firing?, hmemory] at ha
    cases ha
  refine ⟨rfl, ⟨?_, ?_, ?_⟩, .of_empty rfl rfl rfl rfl ?_⟩
  · intro t ht
    rw [show ((start n base).setLogging true).deductions = .empty from rfl,
      MemoryGraph.contains_empty] at ht
    cases ht
  · intro t ht
    rw [show ((start n base).setLogging true).committed = .empty from rfl,
      OrderedSet.contains_empty] at ht
    cases ht
  · rintro a t ⟨⟨firing, ha, _⟩, _⟩
    exact absurd ⟨firing, ha⟩ (hdead a)
  · exact fun r c _ _ i j hi _ => absurd hi (hdead _)

end Explained

theorem Documented.explained (h : Documented n e) (hwired : n.Wired) (hplain : n.Plain)
    (htame : n.Tame) (hapt : n.Apt) : e.Explained n := by
  have hpreserved := Explained.preserved hapt
  induction h with
  | start _ => exact .of_start n _
  | recomputed hdocumented hleaves ih =>
      refine hpreserved.recomputed ih (hdocumented.reached.resting hwired hplain htame)
        (fun e₁ _ hrestarts => ?_) hleaves
      exact ⟨hrestarts.network_eq.trans ih.network_eq, .restarted hrestarts,
        .restarted ih.recorded.logged.logging hrestarts⟩
  | @added _ _ _ t hdocumented hleaves ih =>
      have hresting := hdocumented.reached.resting hwired hplain htame
      have hnone := ih.prudent.not_astray hresting.steady hresting.quiet
      exact hpreserved.added ih hresting (fun _ => ⟨ih.network_eq, ih.prudent.expanded hnone t,
        ih.recorded.of_proofs rfl rfl rfl rfl rfl rfl⟩) hleaves
  | deleted hdocumented hkept hleaves ih =>
      have hresting := hdocumented.reached.resting hwired hplain htame
      have hnone := ih.prudent.not_astray hresting.steady hresting.quiet
      exact hpreserved.deleted ih hresting
        (ih.reduced hresting.steady.consistent.deductions hnone hkept) hleaves
  | announced hdocumented hleaves ih =>
      have hresting := hdocumented.reached.resting hwired hplain htame
      exact hpreserved.announced ih hresting
        (ih.recast (ih.prudent.not_astray hresting.steady hresting.quiet)) hleaves
  | settings hdocumented ih =>
      have hresting := hdocumented.reached.resting hwired hplain htame
      exact ih.recast (ih.prudent.not_astray hresting.steady hresting.quiet)

/-- Where nothing is removed or deleted that is only deduced, and no two rules are equal, a
triple has derivations as long as it is deduced, and no longer. -/
theorem derivations_iff_of_documented {rules : List Rule} {registry : Registry}
    (hn : Network.compile rules registry = .ok n) (hplain : n.Plain) (htame : n.Tame)
    (hmild : n.Mild) (hdistinct : rules.Pairwise fun r s => (r == s) = false)
    (h : Documented n e) (t : Triple) :
    e.derivations.get t ≠ [] ↔ e.deductions.contains t = true := by
  obtain ⟨hwired, _, _⟩ := Network.compile_eq_ok hn
  have hapt : n.Apt := by
    refine ⟨fun r c hc => ?_, Network.diverse_of_compile hn hdistinct, hmild⟩
    obtain ⟨rule, _, hrule⟩ := Network.exists_rule_of_rule? hn hc
    exact ⟨registry, rule, hrule⟩
  have hresting := h.reached.resting hwired hplain htame
  have hexplained := h.explained hwired hplain htame hapt
  rw [hexplained.recorded.logged.get_ne_nil_iff t,
    hexplained.prudent.deduced_iff hresting.steady hresting.quiet t]

/-! ## An engine that tells why -/

/-- The engine that swaps subjects and objects, with derivations recorded. -/
def telling : Engine MemoryGraph :=
  let e := (start mirrorNetwork .empty).setLogging true
  let e := (e.recompute 20).state?.getD e
  (e.add 20 link).state?.getD e

theorem exists_telling : ∃ e,
    (((start mirrorNetwork MemoryGraph.empty).setLogging true).recompute 20).state? = some e ∧
      (e.add 20 link).state? = some telling := by
  have hrecomputed : (((start mirrorNetwork MemoryGraph.empty).setLogging true).recompute
      20).state?.isSome = true := by decide +kernel
  have hadded : (((((start mirrorNetwork MemoryGraph.empty).setLogging true).recompute
      20).state?.getD ((start mirrorNetwork .empty).setLogging true)).add 20
        link).state?.isSome = true := by decide +kernel
  exact ⟨_, Outcome.state?_eq_getD hrecomputed _, Outcome.state?_eq_getD hadded _⟩

theorem documented_telling : Documented mirrorNetwork telling := by
  obtain ⟨_, hrecomputed, hadded⟩ := exists_telling
  exact ((Documented.start .empty).recomputed hrecomputed).added hadded

theorem derivations_iff_telling : telling.deductions.contains backlink = true ∧
    (telling.derivations.get backlink ≠ [] ↔ telling.deductions.contains backlink = true) := by
  have hcall : ∀ rule ∈ [mirroring], ∀ call, Clause.call call ∉ rule.head := by
    intro rule hrule call hcall
    obtain rfl := List.mem_singleton.1 hrule
    cases List.mem_singleton.1 hcall
  refine ⟨by decide +kernel, derivations_iff_of_documented compile_mirroring ?_ ?_ ?_ ?_
    documented_telling backlink⟩
  · exact Network.plain_of_all (by decide +kernel)
  · exact Network.tame_of_standard compile_mirroring fun rule hrule call h =>
      absurd h (hcall rule hrule call)
  · exact Network.mild_of_standard compile_mirroring fun rule hrule call h =>
      absurd h (hcall rule hrule call)
  · exact List.pairwise_singleton _ _

/-- Once the backlink has been deleted, which is only deduced. -/
def severed : Engine MemoryGraph := (telling.delete 20 backlink).state?.getD telling

/-- A deduction that is deleted leaves its derivations behind. -/
theorem not_derivations_iff_severed :
    Network.compile [mirroring] Registry.standard = .ok mirrorNetwork ∧
      Reached mirrorNetwork severed ∧ severed.logging = true ∧ severed.state = .idle ∧
      severed.derivations.get backlink ≠ [] ∧ severed.deductions.contains backlink = false := by
  have hdeleted : (telling.delete 20 backlink).state?.isSome = true := by decide +kernel
  have hkept : (severed.derivations.get backlink).isEmpty = false := by decide +kernel
  refine ⟨compile_mirroring, documented_telling.reached.deleted
    (Outcome.state?_eq_getD hdeleted _), by decide +kernel, by decide +kernel, ?_,
    by decide +kernel⟩
  exact fun hnone => absurd (congrArg List.isEmpty hnone) (by rw [hkept]; exact Bool.false_ne_true)

end Engine

end Entailment
