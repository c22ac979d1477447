import Entailment.Builtin.Standard
import Entailment.Proofs.Matching.Resolution
import Entailment.Rule.Evaluation

/-!
# What calls keep

A call may bind more variables, but it changes no value and binds ground nodes only,
and no standard builtin but one has anything dropped.  So the conclusions of a rule
are ground triples, whatever its calls do.
-/

namespace Entailment

namespace CallContext

/-- A search finds ground triples only. -/
def Sound (ctx : CallContext) : Prop := ∀ p, ∀ t ∈ ctx.find p, t.isGround = true

end CallContext

namespace Bindings

variable {b b' b'' : Bindings}

/-- Variables may have been bound to ground nodes, and none has changed its value. -/
structure Grows (b b' : Bindings) : Prop where
  ground : b'.Ground
  length_eq : b'.length = b.length
  keeps : ∀ i n, b.held? i = some n → b'.held? i = some n

namespace Grows

theorem refl (hground : b.Ground) : b.Grows b := ⟨hground, rfl, fun _ _ h => h⟩

theorem trans (h : b.Grows b') (k : b'.Grows b'') : b.Grows b'' where
  ground := k.ground
  length_eq := k.length_eq.trans h.length_eq
  keeps i n hi := k.keeps i n (h.keeps i n hi)

theorem of_solves {C : Assignment → Prop} {vars : List Nat} {result : Bool × Bindings}
    (h : b.Solves C vars result) : b.Grows result.2 := ⟨h.ground, h.length_eq, h.keeps⟩

end Grows

/-- Binding a slot to a ground value solves the equation between them. -/
theorem solves_bindSlot (hb : b.Ground) (i : Nat) {value : Node} (hvalue : value.isGround = true) :
    b.Solves (fun σ => (σ i == value) = true) [i] (b.bindSlot i value) := by
  refine solves_bindSlotBy hb i hvalue ?_
  intro m hm
  exact unifyWithin_ground _ b m value hm hvalue (Nat.le_of_lt (b.size_lt_depthBound m value))

/-- Binding a node to a ground value solves the equation between them. -/
theorem solves_bind (hb : b.Ground) (target : Node) {value : Node}
    (hvalue : value.isGround = true) :
    b.Solves (fun σ => target.Fits σ value) target.indexes (b.bind target value) := by
  cases target with
  | var v => exact solves_bindSlot hb v.index hvalue
  | _ => exact solves_unify hb _ hvalue

end Bindings

namespace CallState

/-- More variables may be bound, and nothing more is to be dropped. -/
structure Advances (st st' : CallState) : Prop where
  bindings : st.bindings.Grows st'.bindings
  dropped : st'.effects.dropped = st.effects.dropped

variable {st st' st'' : CallState}

namespace Advances

theorem of_eq (hground : st.bindings.Ground) (hbindings : st'.bindings = st.bindings)
    (hdropped : st'.effects.dropped = st.effects.dropped) : st.Advances st' where
  bindings := by
    rw [hbindings]
    exact .refl hground
  dropped := hdropped

theorem refl (hground : st.bindings.Ground) : st.Advances st := of_eq hground rfl rfl

theorem trans (h : st.Advances st') (k : st'.Advances st'') : st.Advances st'' where
  bindings := h.bindings.trans k.bindings
  dropped := k.dropped.trans h.dropped

theorem ground (h : st.Advances st') : st'.bindings.Ground := h.bindings.ground

end Advances

theorem advances_bind (hground : st.bindings.Ground) (target : Node) {value : Node}
    (hvalue : value.isGround = true) : st.Advances (st.bind target value).2 :=
  ⟨.of_solves (Bindings.solves_bind hground target hvalue), rfl⟩

theorem advances_effect (hground : st.bindings.Ground) (ctx : CallContext)
    {change : Effects → Effects} (hchange : (change st.effects).dropped = st.effects.dropped) :
    st.Advances (st.effect ctx change) := by
  unfold effect
  split
  · exact .of_eq hground rfl hchange
  · exact .refl hground

end CallState

/-- The procedure keeps what is bound, and has nothing dropped. -/
def Procedure.Keeps (procedure : Procedure) : Prop :=
  ∀ (ctx : CallContext) (args : List Node) (st : CallState), ctx.Sound → st.bindings.Ground →
    st.Advances (procedure ctx args st).2

namespace Numeric

theorem isGround_toNode (n : Numeric) : n.toNode.isGround = true := by
  cases n <;> rfl

theorem isGround_of_ofNode {n : Node} {x : Numeric} (h : ofNode n = some x) :
    n.isGround = true := by
  cases n with
  | literal l => rfl
  | _ => cases h

end Numeric

namespace Chain

theorem isGround_of_valueOf {ctx : CallContext} (hctx : ctx.Sound) {cell n : Node}
    {predicate : String} (h : valueOf ctx cell predicate = some n) : n.isGround = true := by
  unfold valueOf at h
  obtain ⟨t, ht, rfl⟩ := Option.map_eq_some_iff.1 h
  have hground := hctx _ t (List.mem_of_head? ht)
  rw [Triple.isGround, Bool.and_eq_true] at hground
  exact hground.2

theorem isGround_of_follow {ctx : CallContext} (hctx : ctx.Sound) (steps : Nat) {seen : List Node}
    {cell : Node} {items : List Node} (h : follow ctx steps seen cell = some items) :
    ∀ n ∈ items, n.isGround = true := by
  induction steps generalizing seen cell items with
  | zero => cases h
  | succ steps ih =>
      unfold follow at h
      split at h
      · cases h
        intro n hn
        cases hn
      · split at h
        · cases h
        · obtain ⟨value, hvalue, h⟩ := Option.bind_eq_some_iff.1 h
          obtain ⟨next, _, h⟩ := Option.bind_eq_some_iff.1 h
          obtain ⟨values, hvalues, h⟩ := Option.bind_eq_some_iff.1 h
          cases h
          intro n hn
          rcases List.mem_cons.1 hn with rfl | hn
          · exact isGround_of_valueOf hctx hvalue
          · exact ih hvalues n hn

end Chain

namespace Builtin

variable {ctx : CallContext} {args : List Node} {st : CallState}

theorem keeps_of_test (name : String) (arity : Nat) (test : List Node → Bool) :
    Procedure.Keeps (ofTest name arity test).body :=
  fun _ _ _ _ hground => .refl hground

/-! ## Arithmetic and texts -/

theorem advances_bindNumber (hground : st.bindings.Ground) (target : Node) (value : Numeric) :
    st.Advances (st.bindNumber target value).2 := by
  unfold CallState.bindNumber
  split
  · exact .refl hground
  · exact CallState.advances_bind hground target value.isGround_toNode

theorem advances_bindNumber? (hground : st.bindings.Ground) (target : Node)
    (value : Option Numeric) : st.Advances (st.bindNumber? target value).2 := by
  cases value with
  | some n => exact advances_bindNumber hground target n
  | none => exact .refl hground

theorem keeps_arithmetic (name : String) (whole : Int64 → Int64 → WholeResult)
    (real : Double → Double → Option Double) :
    Procedure.Keeps (arithmetic name whole real).body := by
  intro ctx args st _ hground
  simp only [arithmetic]
  split
  · split
    · split
      · split
        · exact advances_bindNumber hground _ _
        · exact advances_bindNumber? hground _ _
        · exact .of_eq hground rfl rfl
      · exact advances_bindNumber? hground _ _
    · exact .refl hground
  · exact .refl hground

theorem keeps_successor : Procedure.Keeps successor.body := by
  intro ctx args st _ hground
  simp only [successor]
  split
  · split
    · exact advances_bindNumber? hground _ _
    · exact advances_bindNumber hground _ _
    · exact .refl hground
  · exact .refl hground

theorem keeps_extremum (name : String) (takesFirst : Ordering → Bool) :
    Procedure.Keeps (extremum name takesFirst).body := by
  intro ctx args st _ hground
  simp only [extremum]
  split
  · split
    · rename_i hx hy
      split
      · refine CallState.advances_bind hground _ ?_
        split
        · exact Numeric.isGround_of_ofNode hx
        · exact Numeric.isGround_of_ofNode hy
      · exact .refl hground
    · exact .refl hground
  · exact .refl hground

theorem keeps_concatenation (name : String) {make : String → Node}
    (hmake : ∀ s, (make s).isGround = true) : Procedure.Keeps (concatenation name make).body := by
  intro ctx args st _ hground
  simp only [concatenation]
  split
  · exact .refl hground
  · split
    · exact CallState.advances_bind hground _ (hmake _)
    · exact .refl hground

theorem advances_bindEach {pairs : List (Node × Node)}
    (hpairs : ∀ pair ∈ pairs, pair.2.isGround = true) (hground : st.bindings.Ground) :
    st.Advances (bindEach pairs st).2 := by
  induction pairs generalizing st with
  | nil => exact .refl hground
  | cons pair pairs ih =>
      have hbound := CallState.advances_bind hground pair.1 (hpairs pair (List.mem_cons_self ..))
      unfold bindEach
      cases hresult : st.bind pair.1 pair.2 with
      | mk answer st' =>
          rw [hresult] at hbound
          cases answer with
          | true =>
              exact hbound.trans (ih (fun q hq => hpairs q (List.mem_cons_of_mem _ hq)) hbound.ground)
          | false => exact hbound

theorem keeps_regexMatch : Procedure.Keeps regexMatch.body := by
  intro ctx args st _ hground
  simp only [regexMatch]
  split
  · split
    · split
      · refine advances_bindEach ?_ hground
        intro pair hpair
        obtain ⟨i, _, hi⟩ := List.mem_map.1 (List.of_mem_zip hpair).2
        rw [← hi]
        rfl
      · exact .refl hground
    · exact .refl hground
  · exact .refl hground

theorem keeps_textLength : Procedure.Keeps textLength.body := by
  intro ctx args st _ hground
  simp only [textLength]
  split
  · split
    · exact CallState.advances_bind hground _ rfl
    · exact .refl hground
  · exact .refl hground

/-! ## Lists in the graph -/

theorem keeps_membership (name : String) (expected : Bool) :
    Procedure.Keeps (membership name expected).body := by
  intro ctx args st _ hground
  simp only [membership]
  split
  · exact .refl hground
  · exact .refl hground

theorem keeps_chainLength : Procedure.Keeps chainLength.body := by
  intro ctx args st _ hground
  simp only [chainLength]
  split
  · split
    · exact CallState.advances_bind hground _ rfl
    · exact .refl hground
  · exact .refl hground

theorem keeps_chainEntry : Procedure.Keeps chainEntry.body := by
  intro ctx args st hctx hground
  simp only [chainEntry]
  split
  · split
    · rename_i item hitem
      obtain ⟨i, _, hitem⟩ := Option.bind_eq_some_iff.1 hitem
      obtain ⟨items, hitems, hitem⟩ := Option.bind_eq_some_iff.1 hitem
      refine CallState.advances_bind hground _ ?_
      exact Chain.isGround_of_follow hctx _ hitems item (List.mem_of_getElem? hitem)
    · exact .refl hground
  · exact .refl hground

/-! ## Effects and new nodes -/

theorem keeps_noValue : Procedure.Keeps noValue.body := by
  intro ctx args st _ hground
  simp only [noValue]
  split
  · exact .refl hground
  · exact .refl hground

theorem keeps_removal_body (name : String)
    (remove : CallState → CallContext → Triple → CallState) :
    Procedure.Keeps (removal name remove).body :=
  fun _ _ _ _ hground => .refl hground

theorem keeps_remove (name : String) : Procedure.Keeps (removal name CallState.remove).head := by
  intro ctx args st _ hground
  simp only [removal]
  generalize targets ctx args = ts
  induction ts generalizing st with
  | nil => exact .refl hground
  | cons t ts ih =>
      have hremoved : st.Advances (st.remove ctx t) := CallState.advances_effect hground ctx rfl
      exact hremoved.trans (ih (st.remove ctx t) hremoved.ground)

theorem keeps_hidePredicate : Procedure.Keeps hidePredicate.body := by
  intro ctx args st _ hground
  simp only [hidePredicate]
  split
  · split
    · split
      · exact .refl hground
      · change st.Advances (st.hide ctx _)
        exact CallState.advances_effect hground ctx rfl
    · exact .refl hground
  · exact .refl hground

theorem keeps_printLine : Procedure.Keeps printLine.body := by
  intro ctx args st _ hground
  simp only [printLine]
  split
  · exact .refl hground
  · exact .of_eq hground rfl rfl

theorem keeps_makeTemp : Procedure.Keeps makeTemp.body := by
  intro ctx args st _ hground
  simp only [makeTemp]
  split
  · have hfresh : st.Advances st.freshBlank.2 := .of_eq hground rfl rfl
    exact hfresh.trans (CallState.advances_bind hfresh.ground _ rfl)
  · exact .refl hground

theorem keeps_makeSkolem : Procedure.Keeps makeSkolem.body := by
  intro ctx args st _ hground
  simp only [makeSkolem]
  split
  · split
    · exact CallState.advances_bind hground _ rfl
    · exact .refl hground
  · exact .refl hground

theorem keeps_now : Procedure.Keeps now.body := by
  intro ctx args st _ hground
  simp only [now]
  split
  · exact CallState.advances_bind hground _ rfl
  · exact .refl hground

/-! ## The standard builtins -/

/-- A property of all builtins holds of each of the standard ones. -/
theorem forall_standard {kept : Builtin → Prop}
    (htest : ∀ name arity test, kept (ofTest name arity test))
    (harithmetic : ∀ name whole real, kept (arithmetic name whole real))
    (hextremum : ∀ name takesFirst, kept (extremum name takesFirst))
    (hconcatenation : ∀ name make, (∀ s, (make s).isGround = true ∧ (make s).isNested = false) →
      kept (concatenation name make))
    (hmembership : ∀ name expected, kept (membership name expected))
    (hothers : ∀ b ∈ [successor, regexMatch, textLength, chainLength, chainEntry, noValue,
      removal "remove" CallState.remove, removal "drop" CallState.drop, hidePredicate, printLine,
      makeTemp, makeSkolem, now], kept b) :
    ∀ b ∈ standard, kept b := by
  have hcomparison : ∀ name test, kept (comparison name test) := fun _ _ => htest _ _ _
  have hordering : ∀ name accept, kept (ordering name accept) := fun _ _ => htest _ _ _
  have hkind : ∀ name test, kept (kindTest name test) := fun _ _ => htest _ _ _
  simp only [standard, comparisons, arithmetics, kindTests, texts, chains, actions,
    List.forall_mem_append, List.forall_mem_cons, List.not_mem_nil, false_imp_iff, implies_true,
    and_true] at hothers ⊢
  obtain ⟨h₁, h₂, h₃, h₄, h₅, h₆, h₇, h₈, h₉, h₁₀, h₁₁, h₁₂, h₁₃⟩ := hothers
  refine ⟨⟨⟨⟨⟨?_, ?_⟩, ?_⟩, ?_⟩, ?_⟩, ?_⟩
  · exact ⟨hcomparison _ _, hcomparison _ _, hordering _ _, hordering _ _, hordering _ _,
      hordering _ _⟩
  · exact ⟨harithmetic _ _ _, harithmetic _ _ _, harithmetic _ _ _, harithmetic _ _ _,
      hextremum _ _, hextremum _ _, h₁⟩
  · exact ⟨hkind _ _, hkind _ _, hkind _ _, hkind _ _, hkind _ _, hkind _ _, hkind _ _, hkind _ _,
      htest _ _ _⟩
  · exact ⟨hconcatenation _ _ fun _ => ⟨rfl, rfl⟩, hconcatenation _ _ fun _ => ⟨rfl, rfl⟩, h₂, h₃⟩
  · exact ⟨hmembership _ _, hmembership _ _, h₄, h₅⟩
  · exact ⟨h₆, h₇, h₈, h₉, h₁₀, h₁₁, h₁₂, h₁₃⟩

/-- Most builtins do in a head what they do in a body. -/
theorem head_eq_body_of_mem_standard :
    ∀ b ∈ standard, b.name ≠ "remove" → b.name ≠ "drop" → b.head = b.body := by
  apply forall_standard
  · exact fun _ _ _ _ _ => rfl
  · exact fun _ _ _ _ _ => rfl
  · exact fun _ _ _ _ => rfl
  · exact fun _ _ _ _ _ => rfl
  · exact fun _ _ _ _ => rfl
  · simp only [List.forall_mem_cons, List.not_mem_nil, false_imp_iff, implies_true, and_true]
    exact ⟨fun _ _ => rfl, fun _ _ => rfl, fun _ _ => rfl, fun _ _ => rfl, fun _ _ => rfl,
      fun _ _ => rfl, fun h => absurd rfl h, fun _ h => absurd rfl h, fun _ _ => rfl,
      fun _ _ => rfl, fun _ _ => rfl, fun _ _ => rfl, fun _ _ => rfl⟩

/-- The standard builtins of these names, which take facts away, are not monotonic. -/
theorem monotonic_eq_false_of_name :
    ∀ b ∈ standard, b.name = "remove" ∨ b.name = "drop" → b.monotonic = false := by
  intro b hb hname
  have hthese : standard.all (fun b => !(b.name == "remove" || b.name == "drop") ||
      !b.monotonic) = true := rfl
  have hb' := List.all_eq_true.1 hthese b hb
  rw [Bool.or_eq_true, Bool.not_eq_true', Bool.not_eq_true'] at hb'
  refine hb'.resolve_left fun hneither => ?_
  rw [Bool.or_eq_false_iff, beq_eq_false_iff_ne, beq_eq_false_iff_ne] at hneither
  exact hname.elim hneither.1 hneither.2

theorem keeps_body_of_mem_standard : ∀ b ∈ standard, Procedure.Keeps b.body := by
  apply forall_standard
  · exact keeps_of_test
  · exact keeps_arithmetic
  · exact keeps_extremum
  · exact fun name make hmake => keeps_concatenation name fun s => (hmake s).1
  · exact keeps_membership
  · simp only [List.forall_mem_cons, List.not_mem_nil, false_imp_iff, implies_true, and_true]
    exact ⟨keeps_successor, keeps_regexMatch, keeps_textLength, keeps_chainLength,
      keeps_chainEntry, keeps_noValue, keeps_removal_body _ _, keeps_removal_body _ _,
      keeps_hidePredicate, keeps_printLine, keeps_makeTemp, keeps_makeSkolem, keeps_now⟩

theorem keeps_head_of_mem_standard :
    ∀ b ∈ standard, b.name ≠ "drop" → Procedure.Keeps b.head := by
  apply forall_standard
  · exact fun name arity test _ => keeps_of_test name arity test
  · exact fun name whole real _ => keeps_arithmetic name whole real
  · exact fun name takesFirst _ => keeps_extremum name takesFirst
  · exact fun name make hmake _ => keeps_concatenation name fun s => (hmake s).1
  · exact fun name expected _ => keeps_membership name expected
  · simp only [List.forall_mem_cons, List.not_mem_nil, false_imp_iff, implies_true, and_true]
    exact ⟨fun _ => keeps_successor, fun _ => keeps_regexMatch, fun _ => keeps_textLength,
      fun _ => keeps_chainLength, fun _ => keeps_chainEntry, fun _ => keeps_noValue,
      fun _ => keeps_remove _, fun h => absurd rfl h, fun _ => keeps_hidePredicate,
      fun _ => keeps_printLine, fun _ => keeps_makeTemp, fun _ => keeps_makeSkolem,
      fun _ => keeps_now⟩

end Builtin

namespace Registry

/-- A property that every registered builtin has. -/
def Holds (r : Registry) (kept : Builtin → Prop) : Prop :=
  ∀ name b, r.byName.get? name = some b ∨ r.byUri.get? name = some b → kept b

theorem Holds.get? {r : Registry} {kept : Builtin → Prop} (h : r.Holds kept) {name : String}
    {b : Builtin} (hb : r.get? name = some b) : kept b := by
  rw [Registry.get?, Option.or_eq_some_iff] at hb
  rcases hb with hname | ⟨_, huri⟩
  · exact h name b (Or.inl hname)
  · exact h name b (Or.inr huri)

theorem Holds.register {r : Registry} {kept : Builtin → Prop} (h : r.Holds kept) {b : Builtin}
    (hb : kept b) : (r.register b).Holds kept := by
  intro name c hc
  simp only [Registry.register, OrderedMap.get?_insert] at hc
  rcases hc with hname | huri
  · split at hname
    · exact Option.some.inj hname ▸ hb
    · exact h name c (Or.inl hname)
  · split at huri
    · exact Option.some.inj huri ▸ hb
    · exact h name c (Or.inr huri)

theorem holds_ofBuiltins {bs : List Builtin} (kept : Builtin → Prop) (h : ∀ b ∈ bs, kept b) :
    (ofBuiltins bs).Holds kept := by
  have hempty : Registry.empty.Holds kept := by
    rintro name b (hname | huri)
    · cases hname
    · cases huri
  unfold ofBuiltins
  generalize Registry.empty = r at hempty
  induction bs generalizing r with
  | nil => exact hempty
  | cons b bs ih =>
      rw [List.foldl_cons]
      exact ih (fun c hc => h c (List.mem_cons_of_mem _ hc)) _
        (hempty.register (h b (List.mem_cons_self ..)))

theorem mem_standard {name : String} {b : Builtin} (h : standard.get? name = some b) :
    b ∈ Builtin.standard :=
  (holds_ofBuiltins (· ∈ Builtin.standard) fun _ hb => hb).get? h

end Registry

/-! ## Conclusions -/

namespace Bindings

theorem grows_complete {st : Bindings × BlankSupply} (hground : st.1.Ground) (v : Var) :
    (complete st v).1.isGround = true ∧ st.1.Grows (complete st v).2.1 := by
  unfold complete
  split
  · rename_i n hn
    refine ⟨?_, .refl hground⟩
    rw [hground.resolve_var] at hn
    obtain ⟨m, hm, hn⟩ := Option.bind_eq_some_iff.1 hn
    split at hn
    · cases hn
    · exact Option.some.inj hn ▸ hground.isGround hm
  · exact ⟨rfl, .of_solves (solves_bindSlot hground v.index rfl)⟩

mutual
theorem grows_traverse {st : Bindings × BlankSupply} (hground : st.1.Ground) (n : Node) :
    (n.traverse complete freshBlank st).1.isGround = true ∧
      st.1.Grows (n.traverse complete freshBlank st).2.1 := by
  cases n with
  | var v => exact grows_complete hground v
  | any => exact ⟨rfl, .refl hground⟩
  | functor name args => exact grows_traverseAll hground args
  | _ => exact ⟨rfl, .refl hground⟩

theorem grows_traverseAll {st : Bindings × BlankSupply} (hground : st.1.Ground)
    (ns : List Node) :
    Node.allGround (Node.traverseAll complete freshBlank st ns).1 = true ∧
      st.1.Grows (Node.traverseAll complete freshBlank st ns).2.1 := by
  match ns with
  | [] => exact ⟨rfl, .refl hground⟩
  | n :: ns =>
      have hfirst := grows_traverse hground n
      have hrest := grows_traverseAll hfirst.2.ground ns
      refine ⟨?_, hfirst.2.trans hrest.2⟩
      rw [Node.traverseAll, Node.allGround, Bool.and_eq_true]
      exact ⟨hfirst.1, hrest.1⟩
end

/-- A completed pattern is a ground triple. -/
theorem grows_instantiate {b : Bindings} (hb : b.Ground) (supply : BlankSupply)
    (pattern : Triple) : (b.instantiate supply pattern).1.isGround = true ∧
      b.Grows (b.instantiate supply pattern).2.1 := by
  have hs := grows_traverse (show (b, supply).1.Ground from hb) pattern.subject
  have hp := grows_traverse hs.2.ground pattern.predicate
  have ho := grows_traverse hp.2.ground pattern.object
  refine ⟨?_, hs.2.trans (hp.2.trans ho.2)⟩
  rw [Triple.isGround, Bool.and_eq_true, Bool.and_eq_true]
  exact ⟨⟨hs.1, hp.1⟩, ho.1⟩

end Bindings

variable {registry : Registry} {ctx : CallContext} {st : CallState}

/-- The calls of a body advance if each of them does. -/
theorem advances_allHold {ask : Call → CallState → Bool × CallState} {calls : List Call}
    (hask : ∀ c ∈ calls, ∀ st : CallState, st.bindings.Ground → st.Advances (ask c st).2)
    (hground : st.bindings.Ground) : st.Advances (allHold ask calls st).2 := by
  induction calls generalizing st with
  | nil => exact .refl hground
  | cons c calls ih =>
      have hfirst := hask c (List.mem_cons_self ..) st hground
      unfold allHold
      cases hanswer : ask c st with
      | mk answer st' =>
          rw [hanswer] at hfirst
          cases answer with
          | true => exact hfirst.trans (ih (fun d hd => hask d (List.mem_cons_of_mem _ hd)) hfirst.ground)
          | false => exact hfirst

theorem advances_carryOut {clauses : List Clause} {drawn : OrderedSet Triple}
    (hact : ∀ c, Clause.call c ∈ clauses → ∀ st : CallState, st.bindings.Ground →
      st.Advances (c.act registry ctx st))
    (hground : st.bindings.Ground) (hdrawn : ∀ t ∈ drawn.members, t.isGround = true) :
    (∀ t ∈ (clauses.foldl (Clause.carryOut registry ctx) (drawn, st)).1.members,
      t.isGround = true) ∧
      st.Advances (clauses.foldl (Clause.carryOut registry ctx) (drawn, st)).2 := by
  induction clauses generalizing drawn st with
  | nil => exact ⟨hdrawn, .refl hground⟩
  | cons clause clauses ih =>
      rw [List.foldl_cons]
      have hrest := fun c hc => hact c (List.mem_cons_of_mem clause hc)
      cases clause with
      | pattern p =>
          have hone := Bindings.grows_instantiate hground st.world.supply p
          have hdrawn' : ∀ t ∈ (drawn.insert (st.instantiate p).1).members, t.isGround = true := by
            intro t ht
            rcases OrderedSet.mem_insert ht with ht | rfl
            · exact hdrawn t ht
            · exact hone.1
          have hstep : st.Advances (st.instantiate p).2 := ⟨hone.2, rfl⟩
          have hnext := ih hrest hstep.ground hdrawn'
          exact ⟨hnext.1, hstep.trans hnext.2⟩
      | call c =>
          have hone := hact c (List.mem_cons_self ..) st hground
          have hnext := ih hrest hone.ground hdrawn
          exact ⟨hnext.1, hone.trans hnext.2⟩

/-- The head of a rule draws ground conclusions if its calls advance. -/
theorem advances_conclude {r : Rule}
    (hact : ∀ c, Clause.call c ∈ r.head → ∀ st : CallState, st.bindings.Ground →
      st.Advances (c.act registry ctx st))
    (hground : st.bindings.Ground) :
    (∀ t ∈ (r.conclude registry ctx st).1, t.isGround = true) ∧
      st.Advances (r.conclude registry ctx st).2 :=
  advances_carryOut hact hground fun _ ht => nomatch ht

end Entailment
