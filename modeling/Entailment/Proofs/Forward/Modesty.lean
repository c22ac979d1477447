import Entailment.Proofs.Forward.Perseverance
import Entailment.Proofs.Forward.Reliability

/-!
# Rules that make nothing up

Where no head calls anything and every variable of a head occurs in the patterns of its
body, calls that only test or bind cannot change what a rule concludes: a variable of the
head has its value from the facts that were matched.  So the conclusions are made of parts
of these facts and of what is written in the heads, and nothing is removed or dropped.
-/

namespace Entailment

/-! ## Calls that only test or bind -/

/-- What is bound stays, and nothing more is to be removed or dropped. -/
structure CallState.Spares (st st' : CallState) : Prop where
  bindings : st.bindings.Retains st'.bindings
  removed : st'.effects.removed = st.effects.removed
  dropped : st'.effects.dropped = st.effects.dropped

theorem CallState.Spares.refl {st : CallState} : st.Spares st := ⟨.refl, rfl, rfl⟩

theorem CallState.Spares.trans {st st' st'' : CallState} (h : st.Spares st') (k : st'.Spares st'') :
    st.Spares st'' :=
  ⟨h.bindings.trans k.bindings, k.removed.trans h.removed, k.dropped.trans h.dropped⟩

/-- In a body the builtin only tests or binds, and asks for no removal. -/
structure Builtin.Inquires (b : Builtin) : Prop where
  binds : Procedure.Binds b.body
  removed : ∀ (ctx : CallContext) (args : List Node) (st : CallState),
    (b.body ctx args st).2.effects.removed = st.effects.removed
  dropped : ∀ (ctx : CallContext) (args : List Node) (st : CallState),
    (b.body ctx args st).2.effects.dropped = st.effects.dropped

theorem Builtin.Inquires.spares {b : Builtin} (hb : b.Inquires) (ctx : CallContext)
    (args : List Node) (st : CallState) : st.Spares (b.body ctx args st).2 :=
  ⟨.of_evolves (hb.binds ctx args st), hb.removed ctx args st, hb.dropped ctx args st⟩

section Standard

variable {st : CallState}

@[simp] theorem CallState.effects_bind (target value : Node) :
    (st.bind target value).2.effects = st.effects := rfl

@[simp] theorem CallState.effects_overflow : st.overflow.effects = st.effects := rfl

@[simp] theorem CallState.effects_bindNumber (target : Node) (value : Numeric) :
    (st.bindNumber target value).2.effects = st.effects := by
  unfold CallState.bindNumber
  split <;> rfl

@[simp] theorem CallState.effects_bindNumber? (target : Node) (value : Option Numeric) :
    (st.bindNumber? target value).2.effects = st.effects := by
  cases value with
  | some n => exact effects_bindNumber target n
  | none => rfl

@[simp] theorem Builtin.effects_bindEach (pairs : List (Node × Node)) :
    (bindEach pairs st).2.effects = st.effects := by
  induction pairs generalizing st with
  | nil => rfl
  | cons pair pairs ih =>
      unfold bindEach
      cases hresult : st.bind pair.1 pair.2 with
      | mk answer st₁ =>
          have heffects : st₁.effects = st.effects :=
            (congrArg (fun r => r.2.effects) hresult).symm.trans (CallState.effects_bind ..)
          cases answer with
          | true => exact ih.trans heffects
          | false => exact heffects

/-- To remove and to drop is left to heads. -/
theorem Builtin.inquires_of_mem_standard : ∀ b ∈ standard, b.Inquires := by
  suffices h : ∀ b ∈ standard, ∀ (ctx : CallContext) (args : List Node) (st : CallState),
      (b.body ctx args st).2.effects.removed = st.effects.removed ∧
        (b.body ctx args st).2.effects.dropped = st.effects.dropped from
    fun b hb => ⟨(binds_of_mem_standard b hb).1, fun ctx args st => (h b hb ctx args st).1,
      fun ctx args st => (h b hb ctx args st).2⟩
  apply forall_standard
  · exact fun _ _ _ _ _ _ => ⟨rfl, rfl⟩
  · intro name whole real ctx args st
    simp only [arithmetic]
    repeat' split
    all_goals simp
  · intro name takesFirst ctx args st
    simp only [extremum]
    repeat' split
    all_goals simp
  · intro name make _ ctx args st
    simp only [concatenation]
    repeat' split
    all_goals simp
  · intro name expected ctx args st
    simp only [membership]
    split <;> simp
  · simp only [List.forall_mem_cons, List.not_mem_nil, false_imp_iff, implies_true, and_true]
    refine ⟨?_, ?_, ?_, ?_, ?_, ?_, ?_, ?_, ?_, ?_, ?_, ?_, ?_⟩ <;> intro ctx args st
    case refine_9 =>
      -- What is hidden is all that changes.
      simp only [hidePredicate, CallState.hide, CallState.effect]
      repeat' split
      all_goals exact ⟨rfl, rfl⟩
    all_goals
      simp only [successor, regexMatch, textLength, chainLength, chainEntry, noValue, removal,
        printLine, makeTemp, makeSkolem, now]
      repeat' split
    all_goals first | exact ⟨rfl, rfl⟩ | simp

end Standard

theorem spares_allHold {ask : Call → CallState → Bool × CallState} {calls : List Call}
    (hask : ∀ c ∈ calls, ∀ st : CallState, st.Spares (ask c st).2) (st : CallState) :
    st.Spares (allHold ask calls st).2 := by
  induction calls generalizing st with
  | nil => exact .refl
  | cons c calls ih =>
      have hfirst := hask c List.mem_cons_self st
      unfold allHold
      cases hanswer : ask c st with
      | mk answer st' =>
          rw [hanswer] at hfirst
          cases answer with
          | true => exact hfirst.trans (ih (fun d hd => hask d (List.mem_cons_of_mem _ hd)) st')
          | false => exact hfirst

/-! ## Heads that bodies contain -/

/-- The head calls nothing, and no functor or wildcard stands in it, nor a variable that
the patterns of the body do not have. -/
def Rule.Contained (r : Rule) : Prop :=
  ∀ c ∈ r.head, ∃ h, c = .pattern h ∧ ∀ n ∈ h.nodes,
    n.isFunctor = false ∧ n.isAny = false ∧ ∀ i ∈ n.indexes, i ∈ r.boundIndexes

theorem Rule.Elementary.contained {r : Rule} (hr : r.Elementary) : r.Contained := hr.head

theorem Rule.Contained.speaksIn_flat {r : Rule} (hr : r.Contained) :
    r.SpeaksIn fun n => n.isNested = false := by
  intro h hh n hn _
  obtain ⟨k, hk, hnodes⟩ := hr _ hh
  cases hk
  have hfunctor := (hnodes n hn).1
  cases n with
  | functor f as => cases hfunctor
  | _ => rfl

section Heads

variable {b : Bindings} {P : Node → Prop} {supply : BlankSupply}

/-- A node that holds no functor and no wildcard is completed to a node of the vocabulary
where its variables have values from there. -/
theorem Bindings.exists_traverse {n : Node} (hfunctor : n.isFunctor = false)
    (hany : n.isAny = false) (hwritten : n.isGround = true → P n)
    (hheld : ∀ i ∈ n.indexes, ∃ m, b.held? i = some m ∧ m.isGround = true ∧
      m.isNested = false ∧ P m) :
    ∃ m, n.traverse complete freshBlank (b, supply) = (m, b, supply) ∧ P m := by
  cases n with
  | var v =>
      obtain ⟨m, hm, hground, hflat, hvalue⟩ := hheld v.index (List.mem_singleton.2 rfl)
      have hresolve : b.resolve (.var v) = some m := by
        rw [resolve, deref_of_held? hm]
        simp only
        rw [resolveTerm_of_ground hground, hflat]
        rfl
      refine ⟨m, ?_, hvalue⟩
      change complete (b, supply) v = (m, b, supply)
      rw [complete, hresolve]
  | any => cases hany
  | functor f args => cases hfunctor
  | _ => exact ⟨_, rfl, hwritten rfl⟩

variable {r : Rule} {st : CallState}

theorem CallState.exists_instantiate {h : Triple} (hcontained : ∀ n ∈ h.nodes,
      n.isFunctor = false ∧ n.isAny = false ∧ ∀ i ∈ n.indexes, i ∈ r.boundIndexes)
    (hwritten : ∀ n ∈ h.nodes, n.isGround = true → P n)
    (hheld : ∀ i ∈ r.boundIndexes, ∃ m, st.bindings.held? i = some m ∧ m.isGround = true ∧
      m.isNested = false ∧ P m) : ∃ t, st.instantiate h = (t, st) ∧ t.MadeOf P := by
  have hone : ∀ n ∈ h.nodes, ∃ m,
      n.traverse Bindings.complete Bindings.freshBlank (st.bindings, st.world.supply) =
        (m, st.bindings, st.world.supply) ∧ P m := by
    intro n hn
    obtain ⟨hfunctor, hany, hindexes⟩ := hcontained n hn
    exact Bindings.exists_traverse hfunctor hany (hwritten n hn) fun i hi => hheld i (hindexes i hi)
  obtain ⟨s, hs, hPs⟩ := hone h.subject (by simp [Triple.nodes])
  obtain ⟨p, hp, hPp⟩ := hone h.predicate (by simp [Triple.nodes])
  obtain ⟨o, ho, hPo⟩ := hone h.object (by simp [Triple.nodes])
  refine ⟨⟨s, p, o⟩, ?_, ?_⟩
  · unfold CallState.instantiate Bindings.instantiate Triple.traverse
    rw [hs]
    simp only
    rw [hp]
    simp only
    rw [ho]
  · intro n hn
    simp only [Triple.nodes, List.mem_cons, List.not_mem_nil, or_false] at hn
    rcases hn with rfl | rfl | rfl
    · exact hPs
    · exact hPp
    · exact hPo

/-- What a contained head draws is made of what is written in it and of the values of
its variables, and it has no effect. -/
theorem Rule.Contained.conclude (hr : r.Contained) (hspeaks : r.SpeaksIn P)
    (registry : Registry) (ctx : CallContext)
    (hheld : ∀ i ∈ r.boundIndexes, ∃ m, st.bindings.held? i = some m ∧ m.isGround = true ∧
      m.isNested = false ∧ P m) :
    (∀ t ∈ (r.conclude registry ctx st).1, t.MadeOf P) ∧ (r.conclude registry ctx st).2 = st := by
  suffices hclauses : ∀ (clauses : List Clause) (drawn : OrderedSet Triple),
      (∀ c ∈ clauses, c ∈ r.head) → (∀ t ∈ drawn.members, t.MadeOf P) →
      (∀ t ∈ (clauses.foldl (Clause.carryOut registry ctx) (drawn, st)).1.members, t.MadeOf P) ∧
        (clauses.foldl (Clause.carryOut registry ctx) (drawn, st)).2 = st from
    hclauses r.head .empty (fun _ hc => hc) fun _ ht => nomatch ht
  intro clauses
  induction clauses with
  | nil => exact fun _ _ hdrawn => ⟨hdrawn, rfl⟩
  | cons clause clauses ih =>
      intro drawn hhead hdrawn
      obtain ⟨h, rfl, hcontained⟩ := hr clause (hhead clause List.mem_cons_self)
      obtain ⟨t, ht, hmade⟩ := CallState.exists_instantiate hcontained
        (hspeaks h (hhead _ List.mem_cons_self)) hheld
      have hone : Clause.carryOut registry ctx (drawn, st) (.pattern h) = (drawn.insert t, st) := by
        rw [Clause.carryOut, ht]
      rw [List.foldl_cons, hone]
      refine ih _ (fun c hc => hhead c (List.mem_cons_of_mem _ hc)) fun u hu => ?_
      rcases OrderedSet.mem_insert hu with hu | rfl
      · exact hdrawn u hu
      · exact hmade

end Heads

/-! ## Networks -/

namespace Network

variable {n : Network}

/-- Conclusions are ground, heads are contained, and while the calls of a body are asked
what is bound stays and nothing is to be removed or dropped. -/
structure Modest (n : Network) : Prop where
  concrete : n.Concrete
  head : ∀ r c, n.rule? r = some c → c.rule.Contained
  calls : ∀ r c, n.rule? r = some c → ∀ (v : View MemoryGraph) matched (st : CallState),
    v.Sound → st.bindings.Ground → st.Spares
      (allHold (fun call st => call.holds n.registry (.ofView v c.label matched false) st)
        c.calls st).2

theorem modest_of_elementary (hn : n.Elementary) (hwired : n.Wired) (hconcrete : n.Concrete) :
    n.Modest where
  concrete := hconcrete
  head r c hc := (hn.rule r c hc).1.contained
  calls r c hc v matched st hv hground := by
    obtain ⟨_, hfair⟩ := hn.rule r c hc
    have hsound : CallContext.Sound (.ofView v c.label matched false) :=
      fun p t ht => hv.isGround (hv.mem_visible ht).1
    have hcalls : c.calls = c.rule.calls.map Prod.snd := by
      rw [hwired.eq_ofRule hc]
      rfl
    have hask : ∀ call ∈ c.calls, ∀ st : CallState, st.bindings.Ground →
        st.Advances (call.holds n.registry (.ofView v c.label matched false) st).2 := by
      intro call hcall st hground
      rw [hcalls] at hcall
      unfold Call.holds
      cases hd : n.registry.get? call.name with
      | none => exact .refl hground
      | some d => exact (hfair call (Rule.mem_calls_iff.1 hcall) d hd).keeps _ _ _ hsound hground
    have hadvances := advances_allHold hask hground
    have hremoved := (Rule.callsHold_iff st hfair.respects
      (CallContext.like_ofView hv c.label c.rule.label matched [] false false)
      (.refl hground)).2
    rw [← hcalls] at hremoved
    exact ⟨hadvances.bindings.keeps, hremoved, hadvances.dropped⟩

/-- Compiled rules are modest whose heads are contained and whose calls only inquire. -/
theorem modest_of_compile {rules : List Rule} {registry : Registry}
    (hn : compile rules registry = .ok n) (hhead : ∀ rule ∈ rules, rule.Contained)
    (hcalls : ∀ rule ∈ rules, ∀ call, Clause.call call ∈ rule.body → ∀ b,
      registry.get? call.name = some b → b.Inquires) : n.Modest := by
  obtain ⟨_, hregistry, _⟩ := compile_eq_ok hn
  have hinquires : ∀ r c, n.rule? r = some c → ∀ call ∈ c.calls, ∀ b,
      n.registry.get? call.name = some b → b.Inquires := by
    intro r c hc call hcall b hb
    obtain ⟨rule, hmem, rfl⟩ := exists_rule_of_rule? hn hc
    rw [hregistry] at hb
    exact hcalls rule hmem call (Rule.mem_calls_iff.1 hcall) b hb
  have hcontained : ∀ r c, n.rule? r = some c → c.rule.Contained := by
    intro r c hc
    obtain ⟨rule, hmem, rfl⟩ := exists_rule_of_rule? hn hc
    exact hhead rule hmem
  refine ⟨?_, hcontained, ?_⟩
  · refine concrete_of_binds (fun r c hc call hcall b hb => (hinquires r c hc call hcall b hb).binds)
      fun r c hc call hcall => ?_
    obtain ⟨h, hpattern, _⟩ := hcontained r c hc _ hcall
    cases hpattern
  · intro r c hc v matched st _ _
    refine spares_allHold (fun call hcall st => ?_) st
    unfold Call.holds
    cases hb : n.registry.get? call.name with
    | none => exact .refl
    | some b => exact (hinquires r c hc call hcall b hb).spares _ _ st

variable {P : Node → Prop}

/-- Heads that are contained have no functors, so they speak of no nested ones. -/
theorem spoken_flat (hhead : ∀ r c, n.rule? r = some c → c.rule.Contained) :
    Engine.Spoken n fun m => m.isNested = false where
  vocabulary := vocabulary_not_nested
  flat _ h := h
  heads r c hc := (hhead r c hc).speaksIn_flat

theorem Elementary.spoken_flat (hn : n.Elementary) : Engine.Spoken n fun m => m.isNested = false :=
  Network.spoken_flat fun r c hc => (hn.rule r c hc).1.contained

theorem Modest.spoken_flat (hn : n.Modest) : Engine.Spoken n fun m => m.isNested = false :=
  Network.spoken_flat hn.head

/-- A rule concludes what is made of parts of the facts that it has matched and of what
is written in heads, and it has nothing removed or dropped. -/
theorem Modest.evaluate (hn : n.Modest) (hwired : n.Wired) (hP : Engine.Spoken n P) {r : Nat}
    {c : CompiledRule} (hc : n.rule? r = some c) {ts : List Triple} {b : Bindings}
    (hmatches : c.Matches ts b) (hlength : ts.length = c.levels) (hts : ∀ t ∈ ts, t.MadeOf P)
    {v : View MemoryGraph} (hv : v.Sound) {matched : List (Option Triple)} {world : World}
    {conclusions : List Triple} {st : CallState}
    (h : c.evaluate n.registry (.ofView v c.label matched false) { bindings := b, world } =
      (some conclusions, st)) :
    (∀ t ∈ conclusions, t.MadeOf P) ∧ st.effects.removed = [] ∧ st.effects.dropped = [] := by
  have hspares := hn.calls r c hc v matched { bindings := b, world } hv hmatches.ground
  unfold CompiledRule.evaluate at h
  cases hasked : allHold (fun call st => call.holds n.registry (.ofView v c.label matched false) st)
      c.calls { bindings := b, world } with
  | mk held st₁ =>
      rw [hasked] at h hspares
      cases held with
      | false => cases h
      | true =>
          have hheld : ∀ i ∈ c.rule.boundIndexes, ∃ m, st₁.bindings.held? i = some m ∧
              m.isGround = true ∧ m.isNested = false ∧ P m := by
            intro i hi
            obtain ⟨m, hm, hvalue⟩ := hwired.values hP.vocabulary hc hmatches hlength hts i hi
            exact ⟨m, hspares.bindings i m hm, hmatches.ground.isGround hm, hP.flat m hvalue, hvalue⟩
          obtain ⟨hmade, hstate⟩ := (hn.head r c hc).conclude (hP.heads r c hc) n.registry
            (.ofView v c.label matched false) hheld
          obtain ⟨hconclusions, rfl⟩ := Prod.mk.inj h
          obtain rfl := Option.some.inj hconclusions
          refine ⟨hmade, ?_, ?_⟩
          · exact (congrArg (fun st => st.effects.removed) hstate).trans hspares.removed
          · exact (congrArg (fun st => st.effects.dropped) hstate).trans hspares.dropped

end Network

end Entailment
