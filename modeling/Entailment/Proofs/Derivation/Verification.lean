import Entailment.Proofs.Builtin.Flatness
import Entailment.Proofs.Builtin.Keeping
import Entailment.Proofs.Derivation.Recording
import Entailment.Proofs.Rule.Renaming

/-!
# Derivations that can be checked

To check a derivation is to match its antecedents with the body again and its conclusion
with the head, without what calls have bound and without the blank nodes that stand for
other variables of the head.  A variable without a value of its own is completed with one
node for all its places, and one with a value keeps it.  So the conclusion fits the head
under an assignment that the matched facts admit, and the check finds it again.
-/

namespace Entailment

open Bindings

/-! ## Completed patterns -/

namespace Bindings

variable {b : Bindings} {st : Bindings × BlankSupply}

/-- What a variable is completed with is in its slot afterwards. -/
theorem held?_complete (hground : st.1.Ground) (hflat : st.1.Flat) {v : Var}
    (hv : v.index < st.1.length) :
    (complete st v).2.1.held? v.index = some (complete st v).1 := by
  unfold complete
  rw [hground.resolve_var]
  cases hheld : st.1.held? v.index with
  | some n =>
      have hn : n.isNested = false := hflat v.index n (slot?_of_held? hheld)
      simp only [Option.bind_some, hn, Bool.false_eq_true, if_false]
      exact hheld
  | none =>
      have hfree : st.1.deref v.index = some (.unbound v.index) := by
        rw [hground.deref_eq, hheld]
        simp only [if_pos hv]
      have hset : (st.1.bindSlot v.index st.2.fresh.1).2 =
          st.1.set v.index (.ground st.2.fresh.1) := by
        unfold bindSlot bindSlotBy
        rw [hfree]
        rfl
      simp only [Option.bind_none]
      rw [hset, held?_set_ground hv, if_pos rfl]

/-- What a node without functors is completed with fits it wherever the environment lasts. -/
theorem fits_traverse (hground : st.1.Ground) (hflat : st.1.Flat) {n : Node}
    (hn : n.isFunctor = false) (hvars : ∀ i ∈ n.indexes, i < st.1.length)
    (hlasts : (n.traverse complete freshBlank st).2.1.Grows b) :
    n.Fits b.assignment (n.traverse complete freshBlank st).1 := by
  cases n with
  | var v =>
      have hheld := hlasts.keeps _ _
        (held?_complete hground hflat (hvars v.index (List.mem_singleton.2 rfl)))
      exact b.admits_assignment _ _ hheld
  | any => trivial
  | functor f args => cases hn
  | _ => exact BEq.rfl

/-- A pattern without functors is fitted by what it is completed with. -/
theorem fits_instantiate (hground : b.Ground) (hflat : b.Flat) (supply : BlankSupply)
    {p : Triple} (hp : ∀ n ∈ p.nodes, n.isFunctor = false) (hvars : ∀ i ∈ p.indexes, i < b.length) :
    p.Fits (b.instantiate supply p).2.1.assignment (b.instantiate supply p).1 := by
  have hstart : (b, supply).1.Ground := hground
  have hs := (grows_traverse hstart p.subject).2
  have hq := (grows_traverse hs.ground p.predicate).2
  have ho := (grows_traverse hq.ground p.object).2
  have hflat₁ : (p.subject.traverse complete freshBlank (b, supply)).2.1.Flat :=
    Speaks.traverse ample_not_nested hflat p.subject
  have hflat₂ := Speaks.traverse ample_not_nested hflat₁ p.predicate
  rw [Triple.indexes_eq] at hvars
  refine ⟨?_, ?_, ?_⟩
  · refine fits_traverse hground hflat (hp _ (by simp [Triple.nodes])) (fun i hi => ?_)
      (hq.trans ho)
    exact hvars i (by simp [hi])
  · refine fits_traverse hs.ground hflat₁ (hp _ (by simp [Triple.nodes])) (fun i hi => ?_) ho
    rw [hs.length_eq]
    exact hvars i (by simp [hi])
  · refine fits_traverse hq.ground hflat₂ (hp _ (by simp [Triple.nodes])) (fun i hi => ?_)
      (.refl ho.ground)
    rw [hq.length_eq, hs.length_eq]
    exact hvars i (by simp [hi])

theorem Grows.admits {b' : Bindings} (h : b.Grows b') {σ : Assignment} (hσ : b'.Admits σ) :
    b.Admits σ := fun i n hi => hσ i n (h.keeps i n hi)

end Bindings

/-! ## Calls -/

section Calls

variable {registry : Registry} {ctx : CallContext} {c : Call} {st : CallState}

theorem Call.isNested_of_mem_resolvedArgs (hc : c.toNode.isNested = false) (b : Bindings) :
    ∀ a ∈ c.resolvedArgs b, a.isNested = false := by
  intro a ha
  obtain ⟨arg, harg, rfl⟩ := List.mem_map.1 ha
  cases hvalue : b.resolve arg with
  | some n => exact isNested_of_resolve hvalue
  | none =>
      have hfunctor := List.any_eq_false.1 (show c.args.any Node.isFunctor = false from hc) arg harg
      cases arg with
      | functor f args => exact absurd rfl hfunctor
      | _ => rfl

/-- What is bound stays when the call is asked, and a flat environment stays flat. -/
def Call.Asks (registry : Registry) (ctx : CallContext) (c : Call) : Prop :=
  ∀ st : CallState, st.bindings.Ground → st.bindings.Flat →
    st.bindings.Grows (c.holds registry ctx st).2.bindings ∧
      (c.holds registry ctx st).2.bindings.Flat

/-- What is bound stays when the call acts, and a flat environment stays flat. -/
def Call.Acts (registry : Registry) (ctx : CallContext) (c : Call) : Prop :=
  ∀ st : CallState, st.bindings.Ground → st.bindings.Flat →
    st.bindings.Grows (c.act registry ctx st).bindings ∧ (c.act registry ctx st).bindings.Flat

theorem Call.asks (hctx : ctx.Sound) (hflat : ctx.Flat) (hc : c.toNode.isNested = false)
    (hbody : ∀ b, registry.get? c.name = some b →
      Procedure.Keeps b.body ∧ Procedure.KeepsFlat b.body) : c.Asks registry ctx := by
  intro st hground h
  unfold Call.holds
  cases hb : registry.get? c.name with
  | none => exact ⟨.refl hground, h⟩
  | some b =>
      obtain ⟨hkeeps, hkeepsFlat⟩ := hbody b hb
      exact ⟨(hkeeps ctx _ st hctx hground).bindings,
        hkeepsFlat ctx _ st hflat (isNested_of_mem_resolvedArgs hc _) h⟩

theorem Call.acts (hctx : ctx.Sound) (hflat : ctx.Flat) (hc : c.toNode.isNested = false)
    (hhead : ∀ b, registry.get? c.name = some b →
      Procedure.Keeps b.head ∧ Procedure.KeepsFlat b.head) : c.Acts registry ctx := by
  intro st hground h
  unfold Call.act
  cases hb : registry.get? c.name with
  | none => exact ⟨.refl hground, h⟩
  | some b =>
      obtain ⟨hkeeps, hkeepsFlat⟩ := hhead b hb
      exact ⟨(hkeeps ctx _ st hctx hground).bindings,
        hkeepsFlat ctx _ st hflat (isNested_of_mem_resolvedArgs hc _) h⟩

end Calls

/-! ## Conclusions -/

namespace Rule

variable {r : Rule} {registry : Registry} {ctx : CallContext} {st : CallState}

/-- The triple fits a pattern of the head under an assignment that the environment admits. -/
def Warrants (r : Rule) (b : Bindings) (t : Triple) : Prop :=
  ∃ p, Clause.pattern p ∈ r.head ∧ ∃ σ : Assignment, b.Admits σ ∧ p.Fits σ t

/-- The head has patterns without functors, and an environment for the rule a slot for each
of their variables. -/
structure PlainHead (r : Rule) : Prop where
  isFunctor : ∀ p, Clause.pattern p ∈ r.head → ∀ n ∈ p.nodes, n.isFunctor = false
  lt_numVars : ∀ p, Clause.pattern p ∈ r.head → ∀ i ∈ p.indexes, i < r.numVars

/-- What a head draws is warranted by the environment that it starts from. -/
theorem warrants_of_mem_conclude (hr : r.PlainHead)
    (hact : ∀ c, Clause.call c ∈ r.head → c.Acts registry ctx) (hground : st.bindings.Ground)
    (hflat : st.bindings.Flat) (hlength : st.bindings.length = r.numVars) :
    ∀ t ∈ (r.conclude registry ctx st).1, r.Warrants st.bindings t := by
  suffices hclauses : ∀ (clauses : List Clause) (drawn : OrderedSet Triple) (st₁ : CallState),
      (∀ c ∈ clauses, c ∈ r.head) → st.bindings.Grows st₁.bindings → st₁.bindings.Flat →
      (∀ t ∈ drawn.members, r.Warrants st.bindings t) →
      ∀ t ∈ (clauses.foldl (Clause.carryOut registry ctx) (drawn, st₁)).1.members,
        r.Warrants st.bindings t from
    hclauses r.head .empty st (fun _ hc => hc) (.refl hground) hflat fun _ ht => nomatch ht
  intro clauses
  induction clauses with
  | nil => exact fun _ _ _ _ _ hdrawn => hdrawn
  | cons clause clauses ih =>
      intro drawn st₁ hhead hgrows hflat₁ hdrawn
      rw [List.foldl_cons]
      have hclause := hhead clause List.mem_cons_self
      have hrest := fun c hc => hhead c (List.mem_cons_of_mem clause hc)
      cases clause with
      | pattern p =>
          have hcompleted := grows_instantiate hgrows.ground st₁.world.supply p
          have hfits := fits_instantiate hgrows.ground hflat₁ st₁.world.supply
            (hr.isFunctor p hclause) fun i hi => by
              rw [hgrows.length_eq, hlength]
              exact hr.lt_numVars p hclause i hi
          have hgrows' := hgrows.trans hcompleted.2
          have hflat₂ := hflat₁.instantiate ample_not_nested st₁.world.supply p
          refine ih _ _ hrest hgrows' hflat₂ fun t ht => ?_
          rcases OrderedSet.mem_insert ht with ht | rfl
          · exact hdrawn t ht
          · exact ⟨p, hclause, _, hgrows'.admits (admits_assignment _), hfits⟩
      | call c =>
          obtain ⟨hgrown, hflat'⟩ := hact c hclause st₁ hgrows.ground hflat₁
          exact ih _ _ hrest (hgrows.trans hgrown) hflat' hdrawn

end Rule

namespace CompiledRule

variable {c : CompiledRule} {registry : Registry} {ctx : CallContext} {b : Bindings}

/-- What a rule concludes is warranted by what it has matched. -/
theorem warrants_of_evaluate (hr : c.rule.PlainHead)
    (hask : ∀ call ∈ c.calls, call.Asks registry ctx)
    (hact : ∀ call, Clause.call call ∈ c.rule.head → call.Acts registry ctx)
    (hground : b.Ground) (hflat : b.Flat) (hlength : b.length = c.rule.numVars) {world : World}
    {conclusions : List Triple} {st : CallState}
    (h : c.evaluate registry ctx { bindings := b, world } = (some conclusions, st)) :
    ∀ t ∈ conclusions, c.rule.Warrants b t := by
  have hasked : b.Grows (allHold (fun call st => call.holds registry ctx st) c.calls
      { bindings := b, world }).2.bindings ∧ (allHold (fun call st => call.holds registry ctx st)
        c.calls { bindings := b, world }).2.bindings.Flat := by
    refine allHold_keeps (P := fun st : CallState => b.Grows st.bindings ∧ st.bindings.Flat)
      (fun call hcall st hst => ?_) ⟨.refl hground, hflat⟩
    obtain ⟨hgrown, hflat'⟩ := hask call hcall st hst.1.ground hst.2
    exact ⟨hst.1.trans hgrown, hflat'⟩
  unfold evaluate at h
  cases hanswer : allHold (fun call st => call.holds registry ctx st) c.calls
      { bindings := b, world } with
  | mk held st₁ =>
      rw [hanswer] at h hasked
      cases held with
      | false => cases h
      | true =>
          obtain ⟨hconclusions, _⟩ := Prod.mk.inj h
          rw [← Option.some.inj hconclusions]
          intro t ht
          obtain ⟨p, hp, σ, hσ, hfits⟩ := Rule.warrants_of_mem_conclude hr hact hasked.1.ground
            hasked.2 (hasked.1.length_eq.trans hlength) t ht
          exact ⟨p, hp, σ, hasked.1.admits hσ, hfits⟩

end CompiledRule

/-! ## Checking -/

namespace CompiledRule

variable {registry : Registry} {r : Rule} {ts : List Triple} {b : Bindings} {t : Triple}

/-- Antecedents that stand at the places of the patterns are unified with them as the facts
of a token are. -/
theorem unifyAntecedents_eq {c : CompiledRule} {antecedents : List (Option Triple)}
    {patterns : List (Nat × Triple)} (hlength : patterns.length = ts.length)
    (hplaced : ∀ entry ∈ patterns.zip ts, antecedents[entry.1.1]? = some (some entry.2))
    {b' : Bindings} (h : c.unifyToken (patterns.zip ts) b = .ok b') :
    Derivation.unifyAntecedents antecedents patterns b = some b' := by
  induction patterns generalizing ts b with
  | nil =>
      cases h
      rfl
  | cons p patterns ih =>
      cases ts with
      | nil => cases hlength
      | cons u ts =>
          obtain ⟨i, pattern⟩ := p
          have hhere : antecedents[i]? = some (some u) :=
            hplaced ((i, pattern), u) List.mem_cons_self
          rw [List.zip_cons_cons, unifyToken] at h
          rw [Derivation.unifyAntecedents, hhere]
          simp only [Option.join_some]
          cases hmatch : b.matching? pattern u with
          | none =>
              rw [hmatch] at h
              cases h
          | some b₁ =>
              rw [hmatch] at h
              exact ih (Nat.succ.inj hlength)
                (fun entry hentry => hplaced entry (List.mem_cons_of_mem _ hentry)) h

/-- The derivation of a warranted conclusion from what the rule has matched can be checked. -/
theorem verify_derivation (hmatches : (ofRule registry r).Matches ts b)
    (hlength : ts.length = (ofRule registry r).levels) (ht : t.isGround = true)
    (hr : r.PlainHead) (hwarrants : r.Warrants b t) :
    ((ofRule registry r).derivation ts t).verify = true := by
  obtain ⟨p, hp, σ, hσ, hfits⟩ := hwarrants
  have hunify : Derivation.unifyAntecedents ((ofRule registry r).matched ts) r.patterns
      (.empty r.numVars) = some b := by
    have hunified := hmatches.unifyToken_eq
    rw [hlength, levels, List.take_length] at hunified
    refine unifyAntecedents_eq hlength.symm (fun entry hentry => ?_) hunified
    obtain ⟨i, hi, hget⟩ := List.mem_iff_getElem.1 hentry
    rw [List.length_zip] at hi
    rw [List.getElem_zip] at hget
    subst hget
    exact getElem?_matched rfl hlength (by omega) (by omega)
  obtain ⟨b', hmatch⟩ := hmatches.ground.exists_matching? ht (fun i hi => by
    rw [hmatches.length_bindings]
    exact hr.lt_numVars p hp i hi) hσ hfits
  have hshape : ((ofRule registry r).matched ts).length = r.body.length := length_matched _ ts
  have hrule : (ofRule registry r).rule = r := rfl
  unfold Derivation.verify derivation
  simp only [hrule, hshape, bne_self_eq_false, Bool.false_eq_true, if_false, hunify]
  exact List.any_eq_true.2 ⟨.pattern p, hp, Option.isSome_iff_exists.2 ⟨b', hmatch⟩⟩

end CompiledRule

/-! ## Rules that account for what they conclude -/

/-- The derivation can be checked, and has an antecedent for each pattern of its rule and
for nothing else. -/
structure Derivation.Checked (d : Derivation) : Prop where
  verify : d.verify = true
  shape : d.antecedents.map Option.isSome = d.rule.body.map fun clause => clause.pattern?.isSome

/-- The rule is valid, its head has no functors, and its calls leave what is bound and
bind no functor inside a functor. -/
structure Rule.Accountable (registry : Registry) (r : Rule) : Prop where
  valid : r.validate registry = .ok ()
  plainHead : r.PlainHead
  body : ∀ c, Clause.call c ∈ r.body → ∀ b, registry.get? c.name = some b →
    Procedure.Keeps b.body ∧ Procedure.KeepsFlat b.body
  head : ∀ c, Clause.call c ∈ r.head → ∀ b, registry.get? c.name = some b →
    Procedure.Keeps b.head ∧ Procedure.KeepsFlat b.head

/-- A valid rule with a functor-free head accounts for its conclusions if no call of the
head takes facts away. -/
theorem Rule.accountable_of_standard {r : Rule} (hvalid : r.validate Registry.standard = .ok ())
    (hmade : r.Made)
    (hplain : ∀ p, Clause.pattern p ∈ r.head → ∀ n ∈ p.nodes, n.isFunctor = false)
    (hkept : ∀ c, Clause.call c ∈ r.head → ∀ b, Registry.standard.get? c.name = some b →
      b.name ≠ "remove" ∧ b.name ≠ "drop") : r.Accountable Registry.standard where
  valid := hvalid
  plainHead := by
    refine ⟨hplain, fun p hp i hi => ?_⟩
    obtain ⟨name, body, head, direction, rfl⟩ := hmade
    exact lt_numVars_of_make (List.mem_flatMap.2 ⟨.pattern p, List.mem_append_right _ hp, hi⟩)
  body _ _ b hb :=
    have hmem := Registry.mem_standard hb
    ⟨Builtin.keeps_body_of_mem_standard b hmem, Builtin.keepsFlat_of_mem_standard b hmem⟩
  head c hc b hb := by
    have hmem := Registry.mem_standard hb
    rw [Builtin.head_eq_body_of_mem_standard b hmem (hkept c hc b hb).1 (hkept c hc b hb).2]
    exact ⟨Builtin.keeps_body_of_mem_standard b hmem, Builtin.keepsFlat_of_mem_standard b hmem⟩

namespace CompiledRule

variable {registry : Registry} {r : Rule} {ts : List Triple} {b : Bindings} {ctx : CallContext}

/-- Flat facts leave a flat environment. -/
theorem Matches.flat {c : CompiledRule} (h : c.Matches ts b)
    (hpatterns : ∀ p ∈ c.patterns, p.2.Unnested) (hts : ∀ t ∈ ts, t.Unnested) : b.Flat := by
  induction h with
  | none => exact speaks_empty _
  | @next ts b b' p t _ hp _ hmatch ih =>
      have hbefore := ih fun u hu => hts u (List.mem_append_left _ hu)
      have hunified := Bindings.Speaks.unifyTriple vocabulary_not_nested hbefore
        (hpatterns p (List.mem_of_getElem? hp)) (hts t (by simp))
      unfold Bindings.matching? at hmatch
      split at hmatch
      · rename_i hanswer
        rw [hanswer] at hunified
        exact Option.some.inj hmatch ▸ hunified
      · cases hmatch

/-- What a rule concludes from flat facts has a derivation that can be checked. -/
theorem checked_of_evaluate (hr : r.Accountable registry) (hctx : ctx.Sound) (hflat : ctx.Flat)
    (hground : ∀ t ∈ ts, t.isGround = true) (hunnested : ∀ t ∈ ts, t.Unnested)
    (hb : (ofRule registry r).bindings ts = .ok b) {world : World} {conclusions : List Triple}
    {st : CallState} (h : (ofRule registry r).evaluate registry ctx { bindings := b, world } =
      (some conclusions, st)) (hconclusions : ∀ t ∈ conclusions, t.isGround = true) :
    ∀ t ∈ conclusions, ((ofRule registry r).derivation ts t).Checked := by
  obtain ⟨hmatches, hlength⟩ := matches_of_bindings hground hb
  have hclause := Rule.isNested_of_validate hr.valid
  have hpatterns : ∀ p ∈ (ofRule registry r).patterns, p.2.Unnested := fun p hp =>
    Rule.flat_of_validate hr.valid (List.mem_append_left _ (Rule.mem_patterns_iff.1 ⟨p.1, hp⟩))
  have hasked : ∀ call ∈ (ofRule registry r).calls, call.Asks registry ctx := fun call hcall =>
    Call.asks hctx hflat (hclause _ (List.mem_append_left _ (Rule.mem_calls_iff.1 hcall)))
      (hr.body call (Rule.mem_calls_iff.1 hcall))
  have hacts : ∀ call, Clause.call call ∈ r.head → call.Acts registry ctx := fun call hcall =>
    Call.acts hctx hflat (hclause _ (List.mem_append_right _ hcall)) (hr.head call hcall)
  intro t ht
  have hwarrants := warrants_of_evaluate hr.plainHead hasked hacts hmatches.ground
    (hmatches.flat hpatterns hunnested) hmatches.length_bindings h t ht
  exact ⟨verify_derivation hmatches hlength (hconclusions t ht) hr.plainHead hwarrants,
    map_isSome_matched rfl hlength⟩

end CompiledRule

end Entailment
