import Entailment.Forward.Firing
import Entailment.Proofs.Builtin.Independence
import Entailment.Proofs.Forward.Matches
import Entailment.Proofs.Forward.Subscription
import Entailment.Proofs.Graph.Memory
import Entailment.Proofs.Rule.Renaming

/-!
# Instances of rules

An instance of a rule gives each variable of the body's patterns a value.  Its calls
are asked in the environment that the values make, and its head stands for triples that
the values alone determine.  A set of triples is closed under rules when it holds the
head triples of every instance whose body triples are there and whose calls hold.
-/

namespace Entailment

theorem TriplePattern.accepts_of_beq {p q : TriplePattern} (h : (p == q) = true) (t : Triple) :
    p.accepts t = q.accepts t := by
  have hallows : ∀ {x y : Option Node} (n : Node), (x == y) = true → allows x n = allows y n := by
    intro x y n hxy
    rcases Bindings.option_beq_iff.1 hxy with ⟨rfl, rfl⟩ | ⟨a, b, rfl, rfl, hab⟩
    · rfl
    · exact Node.beq_congr hab BEq.rfl
  change (_ && _ && _) = true at h
  rw [Bool.and_eq_true, Bool.and_eq_true] at h
  rw [accepts, accepts, hallows _ h.1.1, hallows _ h.1.2, hallows _ h.2]

/-- Whoever asks a view, equal patterns find something or find nothing. -/
theorem CallContext.like_ofView {v : View MemoryGraph} (hv : v.Sound) (label label' : String)
    (matched matched' : List (Option Triple)) (speculative speculative' : Bool) :
    Like (.ofView v label matched speculative) (.ofView v label' matched' speculative') := by
  have hone : ∀ {p p' : TriplePattern}, (∀ t, p.accepts t = p'.accepts t) →
      v.visible p' = [] → v.visible p = [] := by
    intro p p' hsame hnone
    rw [List.eq_nil_iff_forall_not_mem]
    intro t ht
    obtain ⟨hseen, haccepts⟩ := hv.mem_visible ht
    rw [hsame] at haccepts
    obtain ⟨u, hu, _⟩ := hv.exists_mem_visible hseen haccepts
    rw [hnone] at hu
    cases hu
  intro p p' hsame
  rw [Bool.eq_iff_iff, List.isEmpty_iff, List.isEmpty_iff]
  exact ⟨hone fun t => (TriplePattern.accepts_of_beq hsame t).symm,
    hone (TriplePattern.accepts_of_beq hsame)⟩

namespace Rule

variable {r : Rule} {registry : Registry}

/-- The indexes of the variables that occur in the patterns of the body. -/
def boundIndexes (r : Rule) : List Nat := (r.body.filterMap Clause.pattern?).flatMap Triple.indexes

theorem mem_filterMap_pattern?_iff {cs : List Clause} {p : Triple} :
    p ∈ cs.filterMap Clause.pattern? ↔ Clause.pattern p ∈ cs := by
  rw [List.mem_filterMap]
  constructor
  · rintro ⟨c, hc, hp⟩
    cases c with
    | pattern t =>
        cases hp
        exact hc
    | call call => cases hp
  · intro hp
    exact ⟨.pattern p, hp, rfl⟩

theorem mem_boundIndexes_iff {i : Nat} :
    i ∈ r.boundIndexes ↔ ∃ p, Clause.pattern p ∈ r.body ∧ i ∈ p.indexes := by
  simp only [boundIndexes, List.mem_flatMap, mem_filterMap_pattern?_iff]

/-- The patterns of the body by their levels. -/
theorem mem_patterns_iff {p : Triple} :
    (∃ i, (i, p) ∈ r.patterns) ↔ Clause.pattern p ∈ r.body := by
  simp only [patterns, List.mem_filterMap]
  constructor
  · rintro ⟨i, ⟨c, j⟩, hc, hp⟩
    obtain ⟨t, ht, hpair⟩ := Option.map_eq_some_iff.1 hp
    cases hpair
    have hmem := List.mem_filterMap.2 ⟨c, List.fst_mem_of_mem_zipIdx hc, ht⟩
    exact mem_filterMap_pattern?_iff.1 hmem
  · intro hp
    obtain ⟨i, hi, hget⟩ := List.getElem_of_mem hp
    exact ⟨i, (.pattern p, i), by rw [← hget]; exact List.mk_mem_zipIdx_iff_getElem?.2 (by simp), rfl⟩

/-- The environment of an instance: the variables of the body's patterns have their
values, and no others have one. -/
def environment (r : Rule) (σ : Assignment) : Bindings :=
  ⟨(List.range r.numVars).map fun i => if i ∈ r.boundIndexes then .ground (σ i) else .unbound⟩

/-- Asked in order, and looking at the view, the calls of the body hold. -/
def CallsHold (r : Rule) (registry : Registry) (v : View MemoryGraph) (b : Bindings) : Prop :=
  (allHold (fun call st => call.holds registry (.ofView v r.label [] false) st)
    (r.calls.map Prod.snd) { bindings := b }).1 = true

/-- What the body's patterns match determines the head: it calls nothing, and no functor
or wildcard stands in it, nor a variable that the body's patterns do not have.  A
predicate in the body is open altogether or not at all. -/
structure Elementary (r : Rule) : Prop where
  made : ∃ name body head, r = make name body head .forward
  plain : ∀ p, Clause.pattern p ∈ r.body → p.hasPlainPredicate = true
  head : ∀ c ∈ r.head, ∃ h, c = .pattern h ∧ ∀ n ∈ h.nodes,
    n.isFunctor = false ∧ n.isAny = false ∧ ∀ i ∈ n.indexes, i ∈ r.boundIndexes

end Rule

/-- A set that holds the head triples of every instance whose body triples are in the
base or in the set, and whose calls hold where the view is asked. -/
def Closed (rules : List Rule) (registry : Registry) (base : MemoryGraph)
    (v : View MemoryGraph) (S : Set Triple) : Prop :=
  ∀ r ∈ rules, ∀ σ : Assignment,
    (∀ p, Clause.pattern p ∈ r.body → ∃ t, p.Fits σ t ∧ (base.contains t = true ∨ t ∈ S)) →
    r.CallsHold registry v (r.environment σ) →
    ∀ h, Clause.pattern h ∈ r.head → ∀ t, h.Fits σ t → t ∈ S

/-! ## Environments of instances -/

namespace Rule

variable {r : Rule} {σ : Assignment}

theorem slot?_environment (r : Rule) (σ : Assignment) (i : Nat) :
    (r.environment σ).slot? i =
      if i < r.numVars then some (if i ∈ r.boundIndexes then .ground (σ i) else .unbound)
      else none := by
  unfold Bindings.slot? environment
  rw [List.getElem?_map]
  by_cases hi : i < r.numVars
  · rw [List.getElem?_range hi, if_pos hi]
    rfl
  · rw [if_neg hi, List.getElem?_eq_none (by simpa using hi)]
    rfl

theorem held?_environment (r : Rule) (σ : Assignment) (i : Nat) :
    (r.environment σ).held? i =
      if i < r.numVars ∧ i ∈ r.boundIndexes then some (σ i) else none := by
  unfold Bindings.held?
  rw [slot?_environment]
  by_cases hi : i < r.numVars
  · by_cases hbound : i ∈ r.boundIndexes
    · rw [if_pos hi, if_pos hbound, if_pos ⟨hi, hbound⟩]
    · rw [if_pos hi, if_neg hbound, if_neg fun h => hbound h.2]
  · rw [if_neg hi, if_neg fun h => hi h.1]

theorem length_environment (r : Rule) (σ : Assignment) :
    (r.environment σ).length = r.numVars := by
  simp [Bindings.length, environment]

/-- To be elementary can be read off the clauses one by one. -/
theorem elementary_of_heads (hmade : ∃ name body head, r = make name body head .forward)
    (hplain : ∀ p ∈ r.body.filterMap Clause.pattern?, p.hasPlainPredicate = true)
    (hhead : ∀ c ∈ r.head, ∃ h ∈ c.pattern?, ∀ n ∈ h.nodes,
      n.isFunctor = false ∧ n.isAny = false ∧ ∀ i ∈ n.indexes, i ∈ r.boundIndexes) :
    r.Elementary where
  made := hmade
  plain p hp := hplain p (mem_filterMap_pattern?_iff.2 hp)
  head c hc := by
    obtain ⟨h, hpattern, hnodes⟩ := hhead c hc
    refine ⟨h, ?_, hnodes⟩
    cases c with
    | pattern t =>
        cases hpattern
        rfl
    | call call => cases hpattern

theorem Elementary.lt_numVars (hr : r.Elementary) {i : Nat} (hi : i ∈ r.boundIndexes) :
    i < r.numVars := by
  obtain ⟨name, body, head, hmade⟩ := hr.made
  obtain ⟨p, hp, hip⟩ := mem_boundIndexes_iff.1 hi
  rw [hmade] at hp ⊢
  refine lt_numVars_of_make (List.mem_flatMap.2 ⟨.pattern p, ?_, hip⟩)
  exact List.mem_append_left _ hp

theorem Elementary.bound_of_head (hr : r.Elementary) {h : Triple}
    (hh : Clause.pattern h ∈ r.head) {i : Nat} (hi : i ∈ h.indexes) : i ∈ r.boundIndexes := by
  obtain ⟨k, hk, hnodes⟩ := hr.head _ hh
  cases hk
  rw [Triple.indexes_eq, List.mem_append, List.mem_append] at hi
  rcases hi with (hi | hi) | hi
  · exact (hnodes h.subject (by simp [Triple.nodes])).2.2 i hi
  · exact (hnodes h.predicate (by simp [Triple.nodes])).2.2 i hi
  · exact (hnodes h.object (by simp [Triple.nodes])).2.2 i hi

/-- A complete match has an environment like that of the instance it admits. -/
theorem Elementary.alike_environment (hr : r.Elementary) {registry : Registry}
    {ts : List Triple} {b : Bindings} (hts : (CompiledRule.ofRule registry r).Matches ts b)
    (hlength : ts.length = (CompiledRule.ofRule registry r).levels) (hσ : b.Admits σ) :
    b.Alike (r.environment σ) := by
  have hbound : ∀ i, (b.held? i).isSome = true ↔ i ∈ r.boundIndexes := by
    intro i
    rw [hts.held?_isSome_iff, mem_boundIndexes_iff]
    constructor
    · rintro ⟨level, p, _, hp, hi⟩
      exact ⟨p.2, mem_patterns_iff.1 ⟨p.1, List.mem_of_getElem? hp⟩, hi⟩
    · rintro ⟨p, hp, hi⟩
      obtain ⟨j, hmem⟩ := mem_patterns_iff.2 hp
      obtain ⟨level, hlevel, hget⟩ := List.getElem_of_mem hmem
      refine ⟨level, (j, p), ?_, ?_, hi⟩
      · rw [hlength]
        exact hlevel
      · rw [← hget]
        exact List.getElem?_eq_getElem hlevel
  have hheld : ∀ i, (b.held? i == (r.environment σ).held? i) = true := by
    intro i
    rw [held?_environment]
    cases hi : b.held? i with
    | none =>
        have hnot : i ∉ r.boundIndexes := by
          rw [← hbound, hi]
          exact Bool.false_ne_true
        rw [if_neg fun h => hnot h.2]
        rfl
    | some n =>
        have hmem : i ∈ r.boundIndexes := by
          rw [← hbound, hi]
          rfl
        rw [if_pos ⟨hr.lt_numVars hmem, hmem⟩]
        exact BEq.symm (hσ i n hi)
  refine ⟨hts.ground, ?_, ?_, hheld⟩
  · intro i s hs
    rw [slot?_environment] at hs
    split at hs
    · split at hs
      · rename_i hlt hmem
        cases hs
        refine Or.inr ⟨σ i, rfl, ?_⟩
        obtain ⟨n, hn⟩ := Option.isSome_iff_exists.1 ((hbound i).2 hmem)
        rw [Node.isGround_congr (hσ i n hn)]
        exact hts.ground.isGround hn
      · cases hs
        exact Or.inl rfl
    · cases hs
  · rw [hts.length_bindings, length_environment]
    rfl

end Rule

/-! ## Heads of instances -/

namespace Bindings

/-- The node is a variable with a value that is not nested, or an identifier, a literal
or a blank node. -/
structure Determines (b : Bindings) (n : Node) : Prop where
  noFunctor : n.isFunctor = false
  noAny : n.isAny = false
  held : ∀ i ∈ n.indexes, ∃ m, b.held? i = some m ∧ m.isNested = false

variable {b : Bindings} {n : Node}

theorem Determines.resolve_var {v : Var} (h : b.Determines (.var v)) (hb : b.Ground) :
    ∃ m, b.held? v.index = some m ∧ b.resolve (.var v) = some m := by
  obtain ⟨m, hm, hflat⟩ := h.held v.index (List.mem_singleton.2 rfl)
  refine ⟨m, hm, ?_⟩
  rw [hb.resolve_var, hm, Option.bind_some, hflat]
  rfl

/-- Completing a node that is determined changes nothing else. -/
theorem Determines.traverse_eq (h : b.Determines n) (hb : b.Ground) (supply : BlankSupply) :
    n.traverse complete freshBlank (b, supply) = (b.partialNode n, b, supply) := by
  cases n with
  | var v =>
      obtain ⟨m, _, hm⟩ := h.resolve_var hb
      change complete (b, supply) v = ((b.resolve (.var v)).getD (.var v), b, supply)
      unfold complete
      rw [hm]
      rfl
  | any => cases h.noAny
  | functor f args => cases h.noFunctor
  | _ => rfl

theorem Determines.fits_iff (h : b.Determines n) (hb : b.Ground) (m : Node) :
    n.Fits b.assignment m ↔ (b.partialNode n == m) = true := by
  cases n with
  | var v =>
      obtain ⟨k, hheld, hk⟩ := h.resolve_var hb
      change (b.assignment v.index == m) = true ↔ ((b.resolve (.var v)).getD (.var v) == m) = true
      rw [assignment, hheld, hk]
      rfl
  | any => cases h.noAny
  | functor f args => cases h.noFunctor
  | _ => exact Node.fits_iff_beq rfl

theorem instantiate_of_determines (hb : b.Ground) (supply : BlankSupply) {h : Triple}
    (hnodes : ∀ n ∈ h.nodes, b.Determines n) :
    b.instantiate supply h = (b.partialInstantiate h, b, supply) := by
  have hs := (hnodes h.subject (by simp [Triple.nodes])).traverse_eq hb supply
  have hp := (hnodes h.predicate (by simp [Triple.nodes])).traverse_eq hb supply
  have ho := (hnodes h.object (by simp [Triple.nodes])).traverse_eq hb supply
  unfold instantiate Triple.traverse
  rw [hs]
  simp only
  rw [hp]
  simp only
  rw [ho]
  rfl

theorem fits_iff_partialInstantiate (hb : b.Ground) {h : Triple}
    (hnodes : ∀ n ∈ h.nodes, b.Determines n) (t : Triple) :
    h.Fits b.assignment t ↔ (b.partialInstantiate h == t) = true := by
  have hs := (hnodes h.subject (by simp [Triple.nodes])).fits_iff hb t.subject
  have hp := (hnodes h.predicate (by simp [Triple.nodes])).fits_iff hb t.predicate
  have ho := (hnodes h.object (by simp [Triple.nodes])).fits_iff hb t.object
  rw [Triple.beq_iff]
  exact ⟨fun hfits => ⟨hs.1 hfits.subject, hp.1 hfits.predicate, ho.1 hfits.object⟩,
    fun hsame => ⟨hs.2 hsame.1, hp.2 hsame.2.1, ho.2 hsame.2.2⟩⟩

end Bindings

namespace Rule

variable {registry : Registry} {ctx : CallContext} {st : CallState}

/-- Head patterns that are determined give their instances and have no effect. -/
theorem foldl_carryOut_of_determines (registry : Registry) (ctx : CallContext)
    {clauses : List Clause} (drawn : OrderedSet Triple)
    (hb : st.bindings.Ground)
    (hclauses : ∀ c ∈ clauses, ∃ h, c = .pattern h ∧ ∀ n ∈ h.nodes, st.bindings.Determines n) :
    (clauses.foldl (Clause.carryOut registry ctx) (drawn, st)).2 = st ∧
      ∀ t, (clauses.foldl (Clause.carryOut registry ctx) (drawn, st)).1.contains t = true ↔
        drawn.contains t = true ∨
          ∃ h, Clause.pattern h ∈ clauses ∧ h.Fits st.bindings.assignment t := by
  induction clauses generalizing drawn with
  | nil => exact ⟨rfl, fun t => ⟨Or.inl, fun h => h.elim id fun ⟨_, hmem, _⟩ => nomatch hmem⟩⟩
  | cons clause clauses ih =>
      obtain ⟨h, rfl, hnodes⟩ := hclauses _ List.mem_cons_self
      have hone : Clause.carryOut registry ctx (drawn, st) (.pattern h) =
          (drawn.insert (st.bindings.partialInstantiate h), st) := by
        simp only [Clause.carryOut, CallState.instantiate]
        rw [Bindings.instantiate_of_determines hb _ hnodes]
      rw [List.foldl_cons, hone]
      obtain ⟨hstate, hcontains⟩ := ih (drawn.insert (st.bindings.partialInstantiate h))
        fun c hc => hclauses c (List.mem_cons_of_mem _ hc)
      refine ⟨hstate, fun t => ?_⟩
      rw [hcontains t, OrderedSet.contains_insert, Bool.or_eq_true,
        ← Bindings.fits_iff_partialInstantiate hb hnodes]
      constructor
      · rintro ((hold | hfits) | ⟨k, hk, hfits⟩)
        · exact Or.inl hold
        · exact Or.inr ⟨h, List.mem_cons_self, hfits⟩
        · exact Or.inr ⟨k, List.mem_cons_of_mem _ hk, hfits⟩
      · rintro (hold | ⟨k, hk, hfits⟩)
        · exact Or.inl (Or.inl hold)
        · rcases List.mem_cons.1 hk with hk | hk
          · cases hk
            exact Or.inl (Or.inr hfits)
          · exact Or.inr ⟨k, hk, hfits⟩

variable {r : Rule}

/-- An elementary head draws its instances and nothing else, and has no effect. -/
theorem Elementary.conclude_eq (hr : r.Elementary) (registry : Registry) (ctx : CallContext)
    (hb : st.bindings.Ground)
    (hheld : ∀ i ∈ r.boundIndexes, ∃ m, st.bindings.held? i = some m ∧ m.isNested = false) :
    (r.conclude registry ctx st).2 = st ∧ ∀ t,
      (r.conclude registry ctx st).1.any (· == t) = true ↔
        ∃ h, Clause.pattern h ∈ r.head ∧ h.Fits st.bindings.assignment t := by
  have hclauses : ∀ c ∈ r.head, ∃ h, c = .pattern h ∧
      ∀ n ∈ h.nodes, st.bindings.Determines n := by
    intro c hc
    obtain ⟨h, hpattern, hnodes⟩ := hr.head c hc
    refine ⟨h, hpattern, fun n hn => ?_⟩
    obtain ⟨hfunctor, hany, hindexes⟩ := hnodes n hn
    exact ⟨hfunctor, hany, fun i hi => hheld i (hindexes i hi)⟩
  obtain ⟨hstate, hcontains⟩ :=
    foldl_carryOut_of_determines registry ctx .empty hb hclauses
  refine ⟨hstate, fun t => ?_⟩
  have hany : (r.conclude registry ctx st).1.any (· == t) =
      (r.head.foldl (Clause.carryOut registry ctx) (.empty, st)).1.contains t := rfl
  rw [hany, hcontains t, OrderedSet.contains_empty]
  simp

/-! ## Evaluation of instances -/

/-- The calls of the body are fair wherever they are found. -/
def Fair (r : Rule) (registry : Registry) : Prop :=
  ∀ call, Clause.call call ∈ r.body → ∀ b, registry.get? call.name = some b → b.Fair

/-- The calls of the body may be asked where nothing is decided yet. -/
def Safe (r : Rule) (registry : Registry) : Prop :=
  ∀ call, Clause.call call ∈ r.body → ∀ b, registry.get? call.name = some b → b.safe = true

theorem mem_calls_iff {call : Call} :
    call ∈ r.calls.map Prod.snd ↔ Clause.call call ∈ r.body := by
  simp only [calls, List.mem_map, List.mem_filterMap]
  constructor
  · rintro ⟨_, ⟨⟨c, i⟩, hc, hcall⟩, rfl⟩
    obtain ⟨call, hcall, rfl⟩ := Option.map_eq_some_iff.1 hcall
    cases c with
    | pattern p => cases hcall
    | call d =>
        cases hcall
        exact List.fst_mem_of_mem_zipIdx hc
  · intro hcall
    obtain ⟨i, hi, hget⟩ := List.getElem_of_mem hcall
    exact ⟨(i, call), ⟨(.call call, i),
      by rw [← hget]; exact List.mk_mem_zipIdx_iff_getElem?.2 (by simp), rfl⟩, rfl⟩

variable {v v' : View MemoryGraph} {b b' : Bindings} {like : CallContext → CallContext → Prop}

/-- However the calls are asked, they hold in like environments or in neither. -/
theorem callsHold_iff (st : CallState) (hrespects : ∀ call, Clause.call call ∈ r.body → ∀ d,
      registry.get? call.name = some d → d.body.Respects like)
    (hctx : like ctx (.ofView v r.label [] false)) (hlike : st.bindings.Alike b) :
    ((allHold (fun call st => call.holds registry ctx st) (r.calls.map Prod.snd) st).1 = true ↔
        r.CallsHold registry v b) ∧
      (allHold (fun call st => call.holds registry ctx st)
        (r.calls.map Prod.snd) st).2.effects.removed = st.effects.removed := by
  have hask : ∀ call ∈ r.calls.map Prod.snd, ∀ st st' : CallState,
      st.bindings.Alike st'.bindings →
      CallState.Agree (call.holds registry ctx st)
        (call.holds registry (.ofView v r.label [] false) st') ∧
        (call.holds registry ctx st).2.effects.removed = st.effects.removed :=
    fun call hcall _ _ h => call.agree_holds (hrespects call (mem_calls_iff.1 hcall)) hctx h
  have hagree := agree_allHold hask
    (show st.bindings.Alike (CallState.bindings { bindings := b }) from hlike)
  exact ⟨by rw [hagree.1.1]; rfl, hagree.2⟩

theorem Fair.respects (hr : r.Fair registry) : ∀ call, Clause.call call ∈ r.body → ∀ d,
    registry.get? call.name = some d → d.body.Respects CallContext.Like :=
  fun call hcall d hd => (hr call hcall d hd).alike

theorem Fair.callsHold_congr (hr : r.Fair registry) (hv : v.Sound) (hlike : b.Alike b') :
    r.CallsHold registry v b ↔ r.CallsHold registry v b' :=
  (callsHold_iff { bindings := b } hr.respects
    (CallContext.like_ofView hv _ _ _ _ _ _) hlike).1

/-- What is monotonic holds in every view or in none. -/
theorem Fair.callsHold_anywhere (hr : r.Fair registry)
    (hmonotonic : (CompiledRule.ofRule registry r).nonMonotonic = false) (hb : b.Ground) :
    r.CallsHold registry v b ↔ r.CallsHold registry v' b := by
  have hrespects : ∀ call, Clause.call call ∈ r.body → ∀ d, registry.get? call.name = some d →
      d.body.Respects fun _ _ => True := by
    intro call hcall d hd
    refine (hr call hcall d hd).anywhere ?_
    have hnone := List.any_eq_false.1 hmonotonic call (mem_calls_iff.2 hcall)
    simpa [CompiledRule.isNonMonotonic, hd] using hnone
  exact (callsHold_iff { bindings := b } hrespects trivial (.refl hb)).1

/-- Asked without effect, the calls hold where they hold otherwise. -/
theorem Fair.allHold_speculatively (hr : r.Fair registry) (hsafe : r.Safe registry) (hv : v.Sound)
    (matched : List (Option Triple)) (world : World) (hb : b.Ground) :
    (allHold (fun call st => call.holdsSpeculatively registry (.ofView v r.label matched true) st)
      (r.calls.map Prod.snd) { bindings := b, world }).1 = true ↔ r.CallsHold registry v b := by
  have hsame : ∀ (calls : List Call) (st : CallState),
      (∀ call ∈ calls, Clause.call call ∈ r.body) →
      allHold (fun call st =>
        call.holdsSpeculatively registry (.ofView v r.label matched true) st) calls st =
      allHold (fun call st => call.holds registry (.ofView v r.label matched true) st) calls st := by
    intro calls
    induction calls with
    | nil => intros; rfl
    | cons call calls ih =>
        intro st hcalls
        rw [allHold, allHold,
          call.holdsSpeculatively_eq (hsafe call (hcalls call List.mem_cons_self))]
        split
        · exact ih _ fun d hd => hcalls d (List.mem_cons_of_mem _ hd)
        · rfl
  rw [hsame _ _ fun call hcall => mem_calls_iff.1 hcall]
  exact (callsHold_iff { bindings := b, world } hr.respects
    (CallContext.like_ofView hv _ _ _ _ _ _) (.refl hb)).1

/-- What an evaluation comes to: the calls do not hold, or they hold and the head draws
its instances. -/
theorem Elementary.evaluate_cases (hr : r.Elementary) (hfair : r.Fair registry) (hv : v.Sound)
    (matched : List (Option Triple)) {world : World} (hb : b.Ground)
    (hheld : ∀ i ∈ r.boundIndexes, ∃ m, b.held? i = some m ∧ m.isNested = false)
    {answer : Option (List Triple)} {st' : CallState}
    (h : (CompiledRule.ofRule registry r).evaluate registry (.ofView v r.label matched false)
      { bindings := b, world } = (answer, st')) :
    (answer = none ∧ ¬ r.CallsHold registry v b) ∨
      ∃ conclusions, answer = some conclusions ∧ r.CallsHold registry v b ∧
        st'.effects.removed = [] ∧ ∀ t, conclusions.any (· == t) = true ↔
          ∃ p, Clause.pattern p ∈ r.head ∧ p.Fits b.assignment t := by
  obtain ⟨hholds, hremoved⟩ := callsHold_iff { bindings := b, world } hfair.respects
    (CallContext.like_ofView hv r.label r.label matched [] false false) (.refl hb)
  have hsound : CallContext.Sound (.ofView v r.label matched false) :=
    fun p t ht => hv.isGround (hv.mem_visible ht).1
  have hask : ∀ call ∈ r.calls.map Prod.snd, ∀ st : CallState, st.bindings.Ground →
      st.Advances (call.holds registry (.ofView v r.label matched false) st).2 := by
    intro call hcall st hground
    unfold Call.holds
    cases hd : registry.get? call.name with
    | none => exact .refl hground
    | some d => exact (hfair call (mem_calls_iff.1 hcall) d hd).keeps _ _ _ hsound hground
  have hadvances := advances_allHold hask
    (show (CallState.bindings { bindings := b, world }).Ground from hb)
  unfold CompiledRule.evaluate at h
  have hcalls : (CompiledRule.ofRule registry r).calls = r.calls.map Prod.snd := rfl
  rw [hcalls] at h
  generalize allHold (fun call st =>
    call.holds registry (.ofView v r.label matched false) st) (r.calls.map Prod.snd)
    { bindings := b, world } = result at hholds hremoved hadvances h
  obtain ⟨held, st₁⟩ := result
  cases held with
  | false =>
      cases h
      exact Or.inl ⟨rfl, fun hcalls => Bool.false_ne_true (hholds.2 hcalls)⟩
  | true =>
      -- The calls may have bound more, but what the body's patterns have bound stands.
      have hheld₁ : ∀ i ∈ r.boundIndexes,
          ∃ m, st₁.bindings.held? i = some m ∧ m.isNested = false := by
        intro i hi
        obtain ⟨m, hm, hflat⟩ := hheld i hi
        exact ⟨m, hadvances.bindings.keeps i m hm, hflat⟩
      have hconclude := hr.conclude_eq registry (.ofView v r.label matched false)
        hadvances.ground hheld₁
      obtain ⟨hstate, hdrawn⟩ := hconclude
      cases h
      refine Or.inr ⟨_, rfl, hholds.1 rfl, ?_, fun t => (hdrawn t).trans ?_⟩
      · exact (congrArg (fun st => st.effects.removed) hstate).trans hremoved
      · have hsame : ∀ p, Clause.pattern p ∈ r.head → ∀ i ∈ p.indexes,
            (st₁.bindings.assignment i == b.assignment i) = true := by
          intro p hp i hi
          obtain ⟨m, hm, _⟩ := hheld i (hr.bound_of_head hp hi)
          unfold Bindings.assignment
          rw [hm, hadvances.bindings.keeps i m hm]
          exact BEq.rfl
        constructor
        · rintro ⟨p, hp, hfits⟩
          exact ⟨p, hp, hfits.congr (hsame p hp) BEq.rfl⟩
        · rintro ⟨p, hp, hfits⟩
          exact ⟨p, hp, hfits.congr (fun i hi => BEq.symm (hsame p hp i hi)) BEq.rfl⟩

end Rule

/-! ## What instances are made of -/

/-- With a node there is all that equals it, and with a functor there are its arguments. -/
structure Vocabulary (P : Node → Prop) : Prop where
  congr : ∀ {m n : Node}, (m == n) = true → P m → P n
  args : ∀ {f : String} {as : List Node}, P (.functor f as) → ∀ a ∈ as, P a

theorem vocabulary_not_nested : Vocabulary fun n => n.isNested = false where
  congr h hm := Node.isNested_congr h ▸ hm
  args {f as} h a ha := by
    have hnone := List.any_eq_false.1 (show as.any Node.isFunctor = false from h) a ha
    cases a with
    | functor g bs => exact absurd rfl hnone
    | _ => rfl

theorem vocabulary_ground : Vocabulary fun n => n.isGround = true where
  congr h hm := Node.isGround_congr h ▸ hm
  args h a ha := Node.allGround_iff.1 h a ha

/-- The triple is made of nodes of the vocabulary. -/
def Triple.MadeOf (P : Node → Prop) (t : Triple) : Prop := ∀ n ∈ t.nodes, P n

namespace Vocabulary

variable {P : Node → Prop} {σ : Assignment}

mutual
/-- What the variables of a pattern stand for is part of what fits the pattern. -/
theorem of_fits (hP : Vocabulary P) {p n : Node} (h : p.Fits σ n) (hn : P n) :
    ∀ i ∈ p.indexes, P (σ i) := by
  intro i hi
  match p, n with
  | .var v, n =>
      rw [List.mem_singleton.1 hi]
      exact hP.congr (BEq.symm h) hn
  | .functor f ps, .functor g ns => exact hP.of_allFit h.2 (hP.args hn) i hi
  | .functor f ps, .uri _ | .functor f ps, .literal _ | .functor f ps, .blank _
  | .functor f ps, .var _ | .functor f ps, .any => exact nomatch h
  | .uri _, _ | .literal _, _ | .blank _, _ | .any, _ => exact nomatch hi

theorem of_allFit (hP : Vocabulary P) {ps ns : List Node} (h : Node.AllFit σ ps ns)
    (hns : ∀ n ∈ ns, P n) : ∀ i ∈ Node.indexesAll ps, P (σ i) := by
  intro i hi
  match ps, ns with
  | [], _ => exact nomatch hi
  | p :: ps, n :: ns =>
      rw [Node.indexesAll_cons, List.mem_append] at hi
      rcases hi with hi | hi
      · exact hP.of_fits h.1 (hns n List.mem_cons_self) i hi
      · exact hP.of_allFit h.2 (fun m hm => hns m (List.mem_cons_of_mem _ hm)) i hi
end

theorem of_triple_fits (hP : Vocabulary P) {p t : Triple} (h : p.Fits σ t) (ht : t.MadeOf P) :
    ∀ i ∈ p.indexes, P (σ i) := by
  intro i hi
  rw [Triple.indexes_eq, List.mem_append, List.mem_append] at hi
  rcases hi with (hi | hi) | hi
  · exact hP.of_fits h.subject (ht _ (by simp [Triple.nodes])) i hi
  · exact hP.of_fits h.predicate (ht _ (by simp [Triple.nodes])) i hi
  · exact hP.of_fits h.object (ht _ (by simp [Triple.nodes])) i hi

theorem madeOf_congr (hP : Vocabulary P) {t u : Triple} (h : (t == u) = true)
    (ht : t.MadeOf P) : u.MadeOf P := by
  obtain ⟨hs, hp, ho⟩ := Triple.beq_iff.1 h
  intro n hn
  simp only [Triple.nodes, List.mem_cons, List.not_mem_nil, or_false] at hn
  rcases hn with rfl | rfl | rfl
  · exact hP.congr hs (ht _ (by simp [Triple.nodes]))
  · exact hP.congr hp (ht _ (by simp [Triple.nodes]))
  · exact hP.congr ho (ht _ (by simp [Triple.nodes]))

end Vocabulary

/-- The ground nodes in the head belong to the vocabulary. -/
def Rule.SpeaksIn (r : Rule) (P : Node → Prop) : Prop :=
  ∀ h, Clause.pattern h ∈ r.head → ∀ n ∈ h.nodes, n.isGround = true → P n

/-- The instances of an elementary head are made of its own nodes and of what its
variables stand for. -/
theorem Rule.Elementary.madeOf_head {r : Rule} (hr : r.Elementary) {P : Node → Prop}
    (hP : Vocabulary P) (hspeaks : r.SpeaksIn P) {σ : Assignment}
    (hσ : ∀ i ∈ r.boundIndexes, P (σ i)) {h t : Triple} (hh : Clause.pattern h ∈ r.head)
    (hfits : h.Fits σ t) : t.MadeOf P := by
  obtain ⟨k, hk, hnodes⟩ := hr.head _ hh
  cases hk
  have hone : ∀ n ∈ h.nodes, ∀ m, n.Fits σ m → P m := by
    intro n hn m hm
    obtain ⟨hfunctor, hany, hindexes⟩ := hnodes n hn
    cases n with
    | var v => exact hP.congr hm (hσ v.index (hindexes _ (List.mem_singleton.2 rfl)))
    | any => exact nomatch hany
    | functor f as => exact nomatch hfunctor
    | _ => exact hP.congr ((Node.fits_iff_beq rfl).1 hm) (hspeaks h hh _ hn rfl)
  intro n hn
  simp only [Triple.nodes, List.mem_cons, List.not_mem_nil, or_false] at hn
  rcases hn with rfl | rfl | rfl
  · exact hone h.subject (by simp [Triple.nodes]) _ hfits.subject
  · exact hone h.predicate (by simp [Triple.nodes]) _ hfits.predicate
  · exact hone h.object (by simp [Triple.nodes]) _ hfits.object

end Entailment
