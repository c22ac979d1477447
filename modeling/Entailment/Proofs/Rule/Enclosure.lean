import Entailment.Json.Term
import Entailment.Proofs.Backward.Pertinence
import Entailment.Proofs.Builtin.Flatness
import Entailment.Proofs.Forward.Reconsideration
import Entailment.Proofs.Matching.Instantiation
import Entailment.Proofs.Rule.Renaming

/-!
# Rules that fit their environments

Every environment of a rule has as many slots as the rule says that it has variables, and
nothing that is done to it makes a slot refer to what is none of them.  So a rule fits its
environments just where no variable of it is numbered beyond its number of variables.  That
holds of every rule that numbers its variables itself, but a rule that is read from a
document keeps the numbers that stand there, and the check that a rule can be run does not
look at them.  A variable without a slot has no value anywhere: where a fact is matched, it
matches nothing, and where a conclusion is drawn, it is another blank node each time.
-/

namespace Entailment

namespace Node

mutual
theorem vars_folded (n : Node) : n.folded.vars = n.vars := by
  match n with
  | .functor _ args => exact varsAll_foldedAll args
  | .uri _ | .literal _ | .blank _ | .var _ | .any => rfl

theorem varsAll_foldedAll (ns : List Node) : varsAll (foldedAll ns) = varsAll ns := by
  match ns with
  | [] => rfl
  | n :: ns => rw [foldedAll, varsAll, varsAll, vars_folded n, varsAll_foldedAll ns]
end

/-- All variables of the node are slots of an environment of the size. -/
def Within (size : Nat) (n : Node) : Prop := ∀ i ∈ n.indexes, i < size

variable {size : Nat} {n : Node}

theorem within_of_ground (hn : n.isGround = true) : n.Within size := by
  intro i hi
  rw [indexes_of_ground hn] at hi
  cases hi

theorem ample_within (size : Nat) : Ample (Within size) where
  congr {m n} h hm := by
    have hvars : m.vars = n.vars := by
      rw [← vars_folded m, beq_iff_folded.1 h, vars_folded]
    intro i hi
    rw [indexes, ← hvars] at hi
    exact hm i hi
  args h a ha i hi := h i (mem_indexesAll.2 ⟨a, ha, hi⟩)
  plain hn _ := within_of_ground hn

end Node

theorem Triple.within_of_ground {t : Triple} (ht : t.isGround = true) (size : Nat) :
    t.MadeOf (Node.Within size) :=
  fun n hn => Node.within_of_ground (isGround_iff_nodes.1 ht n hn)

/-! ## Environments of one size -/

namespace Bindings

variable {b b' : Bindings} {size : Nat}

/-- The environment has the size, it holds terms, and its aliases come to an end. -/
structure Sized (size : Nat) (b : Bindings) : Prop extends b.Regular where
  length_eq : b.length = size

theorem sized_empty (size : Nat) : (empty size).Sized size where
  toRegular := regular_empty size
  length_eq := length_empty size

theorem Sized.fills (h : b.Sized size) (hfills : b.Fills b') (hsolid : b'.Solid) :
    b'.Sized size where
  solid := hsolid
  ends := hfills.ends h.ends
  length_eq := hfills.length_eq.trans h.length_eq

theorem Sized.deref_isSome_iff (h : b.Sized size) {i : Nat} :
    (b.deref i).isSome = true ↔ i < size := by
  rw [← h.length_eq, Option.isSome_iff_exists]
  refine ⟨fun ⟨last, hlast⟩ => ?_, h.ends i⟩
  obtain ⟨_, hleads⟩ := deref_eq_some_iff.1 hlast
  exact hleads.lt_length

/-- If no node that a slot holds names another slot than these, then none is named at all. -/
theorem Sized.lt_of_mem_indexes (h : b.Sized size) (hspeaks : b.Speaks (Node.Within size))
    {i j : Nat} {s : Slot} (hi : b.slot? i = some s) (hj : j ∈ s.indexes) : j < size := by
  cases s with
  | unbound => cases hj
  | ground n => exact hspeaks i n hi j hj
  | aliasOf k =>
      obtain rfl := List.mem_singleton.1 hj
      have hsome := h.deref_isSome_iff.2 (h.length_eq ▸ lt_length_of_slot? hi)
      rw [deref_of_alias hi] at hsome
      exact h.deref_isSome_iff.1 hsome

theorem eq_of_matching? {pattern fact : Triple} (h : b.matching? pattern fact = some b') :
    b' = (b.unifyTriple pattern fact).2 := by
  unfold matching? at h
  split at h
  · rename_i hresult
    rw [hresult]
    exact (Option.some.inj h).symm
  · cases h

/-- What a call gets for its arguments are variables of it and ground nodes. -/
theorem Sized.resolvedArgs (h : b.Sized size) {c : Call} (hc : ∀ a ∈ c.args, a.Within size) :
    ∀ a ∈ c.resolvedArgs b, a.Within size := by
  intro a ha
  obtain ⟨arg, harg, rfl⟩ := List.mem_map.1 ha
  cases hvalue : b.resolve arg with
  | none => exact hc arg harg
  | some n => exact Node.within_of_ground (h.solid.isGround_of_resolve hvalue)

end Bindings

/-! ## The head's part of an environment -/

namespace Unifier

variable {u : Unifier}

/-- A slot of the head holds the value of its variable, which is ground. -/
theorem isGround_of_slot?_headBindings (hb : u.bindings.Solid) {i : Nat} {n : Node}
    (h : u.headBindings.slot? i = some (.ground n)) : n.isGround = true := by
  rw [slot?_headBindings] at h
  split at h
  · have hslot := Option.some.inj h
    unfold headSlot at hslot
    split at hslot
    · split at hslot
      · rename_i hvalue
        cases hslot
        exact hb.isGround_of_resolve hvalue
      · cases hslot
    · split at hslot <;> cases hslot
    · cases hslot
  · cases h

theorem sized_headBindings (hb : u.bindings.Regular)
    (hlength : u.headSize ≤ u.bindings.length) : u.headBindings.Sized u.headSize where
  solid i n hi := by
    have hn := isGround_of_slot?_headBindings hb.solid hi
    cases n with
    | var _ | any => cases hn
    | _ => exact ⟨rfl, rfl⟩
  ends i hi := by
    rw [length_headBindings] at hi
    obtain ⟨last, hlast⟩ := hb.ends i (Nat.lt_of_lt_of_le hi hlength)
    cases last with
    | unbound last =>
        obtain ⟨j, _, _, links, hleads⟩ := leads_headBindings_unbound hi hlast
        exact ⟨_, hleads.deref_eq⟩
    | ground m =>
        have hslot : u.headBindings.slot? i = some (u.headSlot i) := by
          rw [slot?_headBindings, if_pos hi]
        rw [headSlot, hlast] at hslot
        simp only at hslot
        split at hslot
        · exact ⟨_, (Bindings.Leads.ground hslot).deref_eq⟩
        · exact ⟨_, (Bindings.Leads.unbound hslot).deref_eq⟩
  length_eq := length_headBindings u

end Unifier

/-- Whatever the goal is, the head gets an environment of its own size that holds ground
nodes. -/
theorem Bindings.sized_unifyHead {goal head : Triple} {headSize : Nat} {b : Bindings}
    (h : unifyHead goal head headSize = some b) :
    b.Sized headSize ∧ b.Speaks (Node.Within headSize) := by
  obtain ⟨u, hu, rfl⟩ := Option.map_eq_some_iff.1 h
  unfold Unifier.ofGoal at hu
  simp only at hu
  have hfills := Fills.unifyTriple (empty (headSize + goal.varBound)) head
    (goal.map (Node.shift headSize))
  have hsolid := (regular_empty (headSize + goal.varBound)).solid.unifyTriple head
    (goal.map (Node.shift headSize))
  split at hu
  · rename_i bindings hresult
    rw [hresult] at hfills hsolid
    cases hu
    have hregular : bindings.Regular := ⟨hsolid, hfills.ends (regular_empty _).ends⟩
    have hlength : headSize ≤ bindings.length := by
      rw [hfills.length_eq, length_empty]
      exact Nat.le_add_right _ _
    exact ⟨Unifier.sized_headBindings (u := ⟨bindings, headSize⟩) hregular hlength,
      fun i n hi => Node.within_of_ground (Unifier.isGround_of_slot?_headBindings hsolid hi)⟩
  · cases hu

/-! ## Calls -/

/-- The builtins bind and do nothing else to an environment, and they bind to nothing that
names other slots than their arguments and the graph do. -/
def Registry.Encloses (registry : Registry) : Prop :=
  ∀ name b, registry.get? name = some b → b.Binds ∧ ∀ size, b.KeepsIn (Node.Within size)

theorem Registry.encloses_standard : Registry.standard.Encloses := fun _ b hb =>
  have hmem := Registry.mem_standard hb
  ⟨Builtin.binds_of_mem_standard b hmem,
    fun size => Builtin.keepsIn_of_mem_standard (Node.ample_within size) b hmem⟩

section Calls

variable {registry : Registry} {ctx : CallContext} {c : Call} {st : CallState} {size : Nat}

theorem CallContext.Sound.findsIn (hctx : ctx.Sound) (size : Nat) :
    ctx.FindsIn (Node.Within size) :=
  fun p t ht => Triple.within_of_ground (hctx p t ht) size

theorem Bindings.Sized.evolves {b b' : Bindings} (h : b.Sized size) (hevolves : b.Evolves b') :
    b'.Sized size := h.fills (.of_evolves hevolves) (h.solid.evolves hevolves)

theorem Call.speaks_holds (hregistry : registry.Encloses) (hctx : ctx.Sound)
    (hc : ∀ a ∈ c.args, a.Within size) (hsized : st.bindings.Sized size)
    (h : st.bindings.Speaks (Node.Within size)) :
    (c.holds registry ctx st).2.bindings.Speaks (Node.Within size) := by
  unfold holds
  cases hb : registry.get? c.name with
  | none => exact h
  | some b =>
      have hkeeps := ((hregistry c.name b hb).2 size).1
      exact hkeeps ctx _ st (hctx.findsIn size) (hsized.resolvedArgs hc) h

theorem Call.speaks_act (hregistry : registry.Encloses) (hctx : ctx.Sound)
    (hc : ∀ a ∈ c.args, a.Within size) (hsized : st.bindings.Sized size)
    (h : st.bindings.Speaks (Node.Within size)) :
    (c.act registry ctx st).bindings.Speaks (Node.Within size) := by
  unfold act
  cases hb : registry.get? c.name with
  | none => exact h
  | some b =>
      have hkeeps := ((hregistry c.name b hb).2 size).2
      exact hkeeps ctx _ st (hctx.findsIn size) (hsized.resolvedArgs hc) h

end Calls

/-! ## The environments of a rule -/

namespace Rule

variable {registry : Registry} {r : Rule} {b : Bindings}

/-- No variable of the rule is numbered beyond its number of variables. -/
def Numbered (r : Rule) : Prop := ∀ i ∈ r.clauseIndexes, i < r.numVars

theorem numbered_make (name : Option String) (body head : List Clause) (direction : Direction) :
    (make name body head direction).Numbered := fun _ => lt_numVars_of_make

theorem Numbered.within (hr : r.Numbered) {c : Clause} (hc : c ∈ r.clauses) :
    ∀ n ∈ c.nodes, n.Within r.numVars := by
  intro n hn i hi
  refine hr i (List.mem_flatMap.2 ⟨c, hc, ?_⟩)
  cases c with
  | call c => exact Node.mem_indexesAll.2 ⟨n, hn, hi⟩
  | pattern t =>
      change i ∈ t.indexes
      rw [Triple.indexes_eq]
      simp only [Clause.nodes, Triple.nodes, List.mem_cons, List.not_mem_nil, or_false] at hn
      rcases hn with rfl | rfl | rfl <;> simp [hi]

/-- The environments that come about while the rule is run: a fresh one, or one of its head
unified with a goal, in which patterns of the body are matched with facts, calls are asked
and carried out, and patterns of the head are completed, in any order and number. -/
inductive Arises (registry : Registry) (r : Rule) : Bindings → Prop where
  | fresh : Arises registry r (.empty r.numVars)
  | goal {goal head : Triple} {b : Bindings} : .pattern head ∈ r.head →
      Bindings.unifyHead goal head r.numVars = some b → Arises registry r b
  | matched {b b' : Bindings} {pattern fact : Triple} : Arises registry r b →
      .pattern pattern ∈ r.body → fact.isGround = true → b.matching? pattern fact = some b' →
      Arises registry r b'
  | asked {ctx : CallContext} {c : Call} {st : CallState} : Arises registry r st.bindings →
      .call c ∈ r.body → ctx.Sound → Arises registry r (c.holds registry ctx st).2.bindings
  | acted {ctx : CallContext} {c : Call} {st : CallState} : Arises registry r st.bindings →
      .call c ∈ r.head → ctx.Sound → Arises registry r (c.act registry ctx st).bindings
  | completed {b : Bindings} {p : Triple} (supply : BlankSupply) : Arises registry r b →
      .pattern p ∈ r.head → Arises registry r (b.instantiate supply p).2.1

/-- All of them have a slot for each of the rule's number of variables, and no other. -/
theorem Arises.sized (hregistry : registry.Encloses) (h : r.Arises registry b) :
    b.Sized r.numVars := by
  induction h with
  | fresh => exact Bindings.sized_empty _
  | goal _ hunify => exact (Bindings.sized_unifyHead hunify).1
  | matched _ _ _ hmatch ih =>
      refine ih.fills (.of_matching? hmatch) ?_
      rw [Bindings.eq_of_matching? hmatch]
      exact ih.solid.unifyTriple _ _
  | asked _ _ _ ih =>
      exact ih.evolves (Call.evolves_holds (fun b hb => (hregistry _ b hb).1.1) _ _)
  | acted _ _ _ ih =>
      exact ih.evolves (Call.evolves_act (fun b hb => (hregistry _ b hb).1.2) _ _)
  | completed supply _ _ ih =>
      exact ih.fills (Bindings.precedes_instantiate (_, supply) _).fills
        (ih.solid.instantiate supply _).2

/-- If the rule is numbered, no slot holds a node that names another slot. -/
theorem Arises.speaks (hr : r.Numbered) (hregistry : registry.Encloses)
    (h : r.Arises registry b) : b.Speaks (Node.Within r.numVars) := by
  have hnames := Node.ample_within r.numVars
  induction h with
  | fresh => exact Bindings.speaks_empty _
  | goal _ hunify => exact (Bindings.sized_unifyHead hunify).2
  | matched _ hpattern hfact hmatch ih =>
      rw [Bindings.eq_of_matching? hmatch]
      exact ih.unifyTriple hnames.toVocabulary (hr.within (List.mem_append_left _ hpattern))
        (Triple.within_of_ground hfact _)
  | asked hbefore hc hctx ih =>
      exact Call.speaks_holds hregistry hctx (hr.within (List.mem_append_left _ hc))
        (hbefore.sized hregistry) ih
  | acted hbefore hc hctx ih =>
      exact Call.speaks_act hregistry hctx (hr.within (List.mem_append_right _ hc))
        (hbefore.sized hregistry) ih
  | completed supply _ _ ih => exact ih.instantiate hnames supply _

/-! ## Runs of a rule -/

section Runs

variable {ctx : CallContext} {st : CallState}

theorem Arises.conclude (h : r.Arises registry st.bindings) (hctx : ctx.Sound) :
    r.Arises registry (r.conclude registry ctx st).2.bindings := by
  suffices hclauses : ∀ (clauses : List Clause) (drawn : OrderedSet Triple) (st : CallState),
      (∀ c ∈ clauses, c ∈ r.head) → r.Arises registry st.bindings →
      r.Arises registry (clauses.foldl (Clause.carryOut registry ctx) (drawn, st)).2.bindings from
    hclauses r.head .empty st (fun _ hc => hc) h
  intro clauses
  induction clauses with
  | nil => exact fun _ _ _ h => h
  | cons clause clauses ih =>
      intro drawn st hhead h
      rw [List.foldl_cons]
      have hclause := hhead clause List.mem_cons_self
      have hrest := fun c hc => hhead c (List.mem_cons_of_mem clause hc)
      cases clause with
      | pattern p => exact ih _ _ hrest (.completed st.world.supply h hclause)
      | call c => exact ih _ _ hrest (.acted h hclause hctx)

/-- What a token of the rule stands for is an environment of it. -/
theorem Arises.of_matches {ts : List Triple}
    (h : (CompiledRule.ofRule registry r).Matches ts b) : r.Arises registry b := by
  induction h with
  | none => exact .fresh
  | @next ts _ _ p t _ hp ht hmatch ih =>
      have hpattern : .pattern p.2 ∈ r.body :=
        mem_patterns_iff.1 ⟨p.1, List.mem_of_getElem? hp⟩
      exact .matched ih hpattern ht hmatch

/-- So is what an activation of the rule leaves behind, whether it fires or not. -/
theorem Arises.of_evaluate {ts : List Triple} (hts : ∀ t ∈ ts, t.isGround = true)
    (hb : (CompiledRule.ofRule registry r).bindings ts = .ok b) (hctx : ctx.Sound)
    (world : World) :
    r.Arises registry ((CompiledRule.ofRule registry r).evaluate registry ctx
      { bindings := b, world }).2.bindings := by
  have hstart : r.Arises registry b := .of_matches (CompiledRule.matches_of_bindings hts hb).1
  have hcalls : r.Arises registry (allHold (fun call st => call.holds registry ctx st)
      (CompiledRule.ofRule registry r).calls { bindings := b, world }).2.bindings :=
    allHold_keeps (P := fun st => r.Arises registry st.bindings)
      (fun c hc st hst => .asked hst (mem_calls_iff.1 hc) hctx) hstart
  unfold CompiledRule.evaluate
  split
  · rename_i hasked
    rwa [hasked] at hcalls
  · rename_i hasked
    rw [hasked] at hcalls
    exact hcalls.conclude hctx

end Runs

end Rule

namespace Solver

variable {γ : Type} [Graph γ] {s : Solver} {view : View γ}
  {prove : Triple → Search (OrderedSet Triple)} {r : GoalRule}

theorem lasts_arises (hview : view.FindsGround) :
    s.Lasts view r r.rule.body (r.rule.Arises s.registry) where
  matched hpattern hfact hmatch hb := .matched hb hpattern hfact hmatch
  asked {call d _ st _} hcall hask hd := by
    let asking : CallState := { bindings := d.bindings, world := st.world }
    have hasking : r.rule.Arises s.registry asking.bindings := hd
    rw [bindings_of_ask hask]
    exact hasking.asked hcall (CallContext.sound_ofView hview _ _ _)

/-- What a rule adds to the answers to a goal is its head under an environment of it. -/
theorem arises_of_expand (hview : view.FindsGround) (hprove : Grounds prove)
    (hhead : .pattern r.head ∈ r.rule.head) {goal : Triple} {answers answers' : OrderedSet Triple}
    {st st' : SearchState} (htable : ∀ shape t, st.Knows shape t → t.isGround = true)
    (h : s.expand view prove goal answers r st = .ok answers' st') :
    ∀ t ∈ answers'.members, t ∈ answers.members ∨
      ∃ b, r.rule.Arises s.registry b ∧ t = b.partialInstantiate r.head := by
  obtain ⟨_, rfl, _⟩ | ⟨bindings, hunify, hbody⟩ := expand_eq_ok h
  · exact fun t ht => .inl ht
  · have hadded := hprove.solveBody (lasts_arises hview) (fun _ hc => hc)
      (Q := fun t => t ∈ answers.members ∨
        ∃ b, r.rule.Arises s.registry b ∧ t = b.partialInstantiate r.head)
      (fun b hb _ => .inr ⟨b, hb, rfl⟩) (.goal hhead hunify) ⟨htable, fun _ => .inl⟩ hbody
    exact hadded.answers

end Solver

namespace Rule

variable {registry : Registry} {r : Rule} {b : Bindings}

/-- In every environment of a rule just the variables below its number of variables have
slots.  So a rule fits its environments if and only if it is numbered, and rules that number
their variables themselves are: then no slot refers to what is no slot of the same
environment, and every variable of the rule has one. -/
theorem fits_iff_numbered (registry : Registry) (hregistry : registry.Encloses) :
    (∀ name body head direction, (make name body head direction).Numbered) ∧
    ∀ r : Rule,
      (∀ b, r.Arises registry b →
        b.length = r.numVars ∧ ∀ i, (b.deref i).isSome = true ↔ i < r.numVars) ∧
      (r.Numbered ↔ ∀ b, r.Arises registry b →
        (∀ i s, b.slot? i = some s → ∀ j ∈ s.indexes, j < r.numVars) ∧
        ∀ i ∈ r.clauseIndexes, (b.deref i).isSome = true) := by
  refine ⟨numbered_make, fun r => ⟨fun b hb => ?_, fun hr b hb => ?_, fun h i hi => ?_⟩⟩
  · have hsized := hb.sized hregistry
    exact ⟨hsized.length_eq, fun i => hsized.deref_isSome_iff⟩
  · have hsized := hb.sized hregistry
    have hspeaks := hb.speaks hr hregistry
    exact ⟨fun i s hi j hj => hsized.lt_of_mem_indexes hspeaks hi hj,
      fun i hi => hsized.deref_isSome_iff.2 (hr i hi)⟩
  · exact (Bindings.sized_empty r.numVars).deref_isSome_iff.1 ((h _ .fresh).2 i hi)

/-! ## A rule that strays -/

/-- A rule with two variables by its own account, whose head has a third. -/
def straying : Rule :=
  { name := some "r"
    body := [.pattern ⟨.var ⟨"x", 0⟩, .uri "p", .var ⟨"y", 1⟩⟩]
    head := [.pattern ⟨.var ⟨"z", 2⟩, .uri "q", .var ⟨"z", 2⟩⟩]
    numVars := 2
    direction := .forward }

theorem fits_iff_numbered_straying : Registry.standard.Encloses ∧
    straying.Arises .standard (.empty 2) ∧
    ∀ b, straying.Arises .standard b → b.length = 2 ∧ b.deref 2 = none := by
  refine ⟨Registry.encloses_standard, .fresh, fun b hb => ?_⟩
  obtain ⟨hlength, hslots⟩ :=
    ((fits_iff_numbered .standard Registry.encloses_standard).2 straying).1 b hb
  refine ⟨hlength, ?_⟩
  rw [← Option.not_isSome_iff_eq_none, hslots]
  exact Nat.lt_irrefl 2

/-- It can be read from a document and is accepted, although a variable of its head is none
of its slots, and its conclusion has two blank nodes where one variable stands. -/
theorem not_numbered_straying : ofJson? Json.depthLimit straying.toJson = some straying ∧
    straying.validate .standard = .ok () ∧
    (Network.compile [straying] .standard).isOk = true ∧
    (∃ i ∈ straying.clauseIndexes, ¬ i < straying.numVars) ∧
    (∃ b, straying.Arises .standard b ∧
      (b.instantiate {} ⟨.var ⟨"z", 2⟩, .uri "q", .var ⟨"z", 2⟩⟩).1 =
        ⟨.blank BlankSupply.firstGenerated, .uri "q", .blank (BlankSupply.firstGenerated + 1)⟩) :=
  ⟨rfl, rfl, by decide +kernel, ⟨2, by decide, by decide⟩, _, .fresh, rfl⟩

end Rule

end Entailment
