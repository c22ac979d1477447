import Entailment.Proofs.Builtin.Keeping
import Mathlib.Logic.Relation

/-!
# What calls may bind

A call may bind any node to any term, and it does nothing else to an environment.
Whatever it binds, no slot comes to hold a variable or a wildcard, so a variable that has
a value has a ground one, and a rule draws ground conclusions only.  What a slot holds
already stays there.
-/

namespace Entailment

namespace Bindings

variable {b b' : Bindings}

/-- No slot holds a variable or a wildcard. -/
def Solid (b : Bindings) : Prop :=
  ∀ i n, b.slot? i = some (.ground n) → n.isVariable = false ∧ n.isAny = false

/-- Nodes have been bound to terms, one after another. -/
def Evolves : Bindings → Bindings → Prop :=
  Relation.ReflTransGen fun b b' => ∃ target value, b' = (b.bind target value).2

theorem Ground.solid (h : b.Ground) : b.Solid := by
  intro i n hi
  rcases h i _ hi with hunbound | ⟨m, hm, hground⟩
  · cases hunbound
  · cases hm
    cases n with
    | var _ => cases hground
    | any => cases hground
    | _ => exact ⟨rfl, rfl⟩

namespace Solid

theorem derefWithin (h : b.Solid) {links i : Nat} {n : Node}
    (hi : b.derefWithin links i = some (.ground n)) : n.isVariable = false ∧ n.isAny = false := by
  induction links generalizing i with
  | zero => cases hi
  | succ links ih =>
      unfold Bindings.derefWithin at hi
      split at hi
      · cases hi
      · cases hi
      · rename_i m hm
        cases hi
        exact h i n hm
      · exact ih hi

theorem set {s : Slot} (h : b.Solid) (i : Nat)
    (hs : ∀ n, s = .ground n → n.isVariable = false ∧ n.isAny = false) : (b.set i s).Solid := by
  intro j n hj
  rw [slot?, Bindings.set, List.getElem?_set] at hj
  split at hj
  · split at hj
    · exact hs n (Option.some.inj hj)
    · cases hj
  · exact h j n hj

theorem compareAll {compare : Comparison} (hcompare : ∀ b m n, b.Solid → (compare b m n).2.Solid)
    (h : b.Solid) (pairs : List (Node × Node)) : (compareAll compare b pairs).2.Solid := by
  induction pairs generalizing b with
  | nil => exact h
  | cons pair pairs ih =>
      have hfirst := hcompare b pair.1 pair.2 h
      unfold Bindings.compareAll
      cases hresult : compare b pair.1 pair.2 with
      | mk answer b₁ =>
          rw [hresult] at hfirst
          cases answer with
          | true => exact ih hfirst
          | false => exact hfirst

theorem bindSlotBy {compare : Comparison} (hcompare : ∀ b m n, b.Solid → (compare b m n).2.Solid)
    (h : b.Solid) (i : Nat) (value : Node) : (bindSlotBy compare b i value).2.Solid := by
  unfold Bindings.bindSlotBy
  split
  · exact h
  · exact hcompare b _ value h
  · split
    · split
      · exact h
      · rename_i n hn
        refine h.set _ fun m hm => ?_
        cases hm
        exact h.derefWithin hn
      · split
        · exact h
        · exact h.set _ fun m hm => nomatch hm
    · exact h
    · rename_i hvar hany
      refine h.set _ fun m hm => ?_
      cases hm
      cases value with
      | var v => exact (hvar v rfl).elim
      | any => exact (hany rfl).elim
      | _ => exact ⟨rfl, rfl⟩

theorem unifyWithin (depth : Nat) (h : b.Solid) (m n : Node) :
    (unifyWithin depth b m n).2.Solid := by
  induction depth generalizing b m n with
  | zero => exact h
  | succ depth ih =>
      have hbelow : ∀ b m n, b.Solid → (Bindings.unifyWithin depth b m n).2.Solid :=
        fun _ m n hb => ih hb m n
      unfold Bindings.unifyWithin
      split
      · exact h
      · exact h
      · exact h
      · rename_i v hsame _
        obtain rfl := Nat.succ.inj hsame
        exact bindSlotBy hbelow h v.index _
      · rename_i v hsame _ _
        obtain rfl := Nat.succ.inj hsame
        exact bindSlotBy hbelow h v.index _
      · rename_i hsame
        obtain rfl := Nat.succ.inj hsame
        split
        · exact compareAll hbelow h _
        · exact h
      · exact h

theorem unifyTriple (h : b.Solid) (pattern fact : Triple) : (b.unifyTriple pattern fact).2.Solid :=
  h.compareAll (fun _ m n hb => hb.unifyWithin _ m n) _

theorem bindSlot (h : b.Solid) (i : Nat) (value : Node) : (b.bindSlot i value).2.Solid :=
  bindSlotBy (fun _ m n hb => hb.unifyWithin _ m n) h i value

theorem bind (h : b.Solid) (target value : Node) : (b.bind target value).2.Solid := by
  cases target with
  | var v => exact h.bindSlot v.index value
  | _ => exact h.unifyWithin _ _ _

theorem evolves (h : b.Solid) (hevolves : b.Evolves b') : b'.Solid := by
  induction hevolves with
  | refl => exact h
  | tail _ hstep ih =>
      obtain ⟨target, value, rfl⟩ := hstep
      exact ih.bind target value

/-! ## Values -/

theorem isGround_of_resolveArg (h : b.Solid) {m n : Node} (hm : b.resolveArg m = some n) :
    n.isGround = true := by
  cases m with
  | var v =>
      rw [resolveArg] at hm
      split at hm
      · rename_i k hk
        split at hm
        · cases hm
        · rename_i hfunctor
          cases hm
          obtain ⟨hvar, hany⟩ := h.derefWithin hk
          cases n with
          | var v => cases hvar
          | any => cases hany
          | functor name args => exact absurd rfl hfunctor
          | _ => rfl
      · cases hm
  | any => cases hm
  | functor name args => cases hm
  | _ => exact Option.some.inj hm ▸ rfl

theorem allGround_of_resolveArgs (h : b.Solid) {ms ns : List Node}
    (hms : ms.mapM b.resolveArg = some ns) : Node.allGround ns = true := by
  refine Node.allGround_iff.2 fun n hn => ?_
  obtain ⟨m, _, hm⟩ := exists_mem_of_forall₂ (forall₂_of_mapM hms) hn
  exact h.isGround_of_resolveArg hm

theorem isGround_of_resolveTerm (h : b.Solid) {m n : Node} (hm : b.resolveTerm m = some n) :
    n.isGround = true := by
  cases m with
  | var v => cases hm
  | any => cases hm
  | functor name args =>
      obtain ⟨ns, hns, rfl⟩ := Option.map_eq_some_iff.1 hm
      exact h.allGround_of_resolveArgs hns
  | _ => exact Option.some.inj hm ▸ rfl

theorem isGround_of_resolve (h : b.Solid) {m n : Node} (hm : b.resolve m = some n) :
    n.isGround = true := by
  unfold resolve at hm
  split at hm
  · split at hm
    · exact h.isGround_of_resolveTerm hm
    · cases hm
  · exact h.isGround_of_resolveTerm hm

/-! ## Completed patterns -/

theorem complete {st : Bindings × BlankSupply} (h : st.1.Solid) (v : Var) :
    (complete st v).1.isGround = true ∧ (complete st v).2.1.Solid := by
  unfold Bindings.complete
  split
  · rename_i n hn
    exact ⟨h.isGround_of_resolve hn, h⟩
  · exact ⟨rfl, h.bindSlot _ _⟩

mutual
theorem traverse {st : Bindings × BlankSupply} (h : st.1.Solid) (n : Node) :
    (n.traverse Bindings.complete freshBlank st).1.isGround = true ∧
      (n.traverse Bindings.complete freshBlank st).2.1.Solid := by
  cases n with
  | var v => exact h.complete v
  | any => exact ⟨rfl, h⟩
  | functor name args => exact h.traverseAll args
  | _ => exact ⟨rfl, h⟩

theorem traverseAll {st : Bindings × BlankSupply} (h : st.1.Solid) (ns : List Node) :
    Node.allGround (Node.traverseAll Bindings.complete freshBlank st ns).1 = true ∧
      (Node.traverseAll Bindings.complete freshBlank st ns).2.1.Solid := by
  match ns with
  | [] => exact ⟨rfl, h⟩
  | n :: ns =>
      have hfirst := h.traverse n
      have hrest := hfirst.2.traverseAll ns
      refine ⟨?_, hrest.2⟩
      rw [Node.traverseAll, Node.allGround, Bool.and_eq_true]
      exact ⟨hfirst.1, hrest.1⟩
end

theorem instantiate (h : b.Solid) (supply : BlankSupply) (pattern : Triple) :
    (b.instantiate supply pattern).1.isGround = true ∧
      (b.instantiate supply pattern).2.1.Solid := by
  have hs := (show (b, supply).1.Solid from h).traverse pattern.subject
  have hp := hs.2.traverse pattern.predicate
  have ho := hp.2.traverse pattern.object
  refine ⟨?_, ho.2⟩
  rw [Triple.isGround, Bool.and_eq_true, Bool.and_eq_true]
  exact ⟨⟨hs.1, hp.1⟩, ho.1⟩

end Solid

/-! ## Slots that are filled -/

/-- Unbound slots have been given something, one after another.  If it was an alias, then
of another unbound slot. -/
def Fills : Bindings → Bindings → Prop :=
  Relation.ReflTransGen fun b b' =>
    ∃ target s, b.slot? target = some .unbound ∧
      (∀ j, s = .aliasOf j → j ≠ target ∧ b.slot? j = some .unbound) ∧ b' = b.set target s

theorem slot?_of_derefWithin {links i target : Nat}
    (h : b.derefWithin links i = some (.unbound target)) : b.slot? target = some .unbound := by
  induction links generalizing i with
  | zero => cases h
  | succ links ih =>
      unfold derefWithin at h
      split at h
      · cases h
      · rename_i hunbound
        cases h
        exact hunbound
      · cases h
      · exact ih h

namespace Fills

theorem refl : b.Fills b := Relation.ReflTransGen.refl

theorem trans {b'' : Bindings} (h : b.Fills b') (k : b'.Fills b'') : b.Fills b'' :=
  Relation.ReflTransGen.trans h k

theorem set_ground {target : Nat} (h : b.slot? target = some .unbound) (n : Node) :
    b.Fills (b.set target (.ground n)) :=
  .single ⟨target, .ground n, h, (fun _ hj => nomatch hj), rfl⟩

theorem set_alias {target other : Nat} (h : b.slot? target = some .unbound)
    (hne : other ≠ target) (hother : b.slot? other = some .unbound) :
    b.Fills (b.set target (.aliasOf other)) := by
  refine .single ⟨target, .aliasOf other, h, fun j hj => ?_, rfl⟩
  cases hj
  exact ⟨hne, hother⟩

theorem compareAll {compare : Comparison}
    (hcompare : ∀ (b : Bindings) m n, b.Fills (compare b m n).2)
    (b : Bindings) (pairs : List (Node × Node)) : b.Fills (compareAll compare b pairs).2 := by
  induction pairs generalizing b with
  | nil => exact .refl
  | cons pair pairs ih =>
      have hfirst := hcompare b pair.1 pair.2
      unfold Bindings.compareAll
      cases hresult : compare b pair.1 pair.2 with
      | mk answer b₁ =>
          rw [hresult] at hfirst
          cases answer with
          | true => exact hfirst.trans (ih b₁)
          | false => exact hfirst

theorem bindSlotBy {compare : Comparison}
    (hcompare : ∀ (b : Bindings) m n, b.Fills (compare b m n).2)
    (b : Bindings) (i : Nat) (value : Node) : b.Fills (bindSlotBy compare b i value).2 := by
  unfold Bindings.bindSlotBy
  split
  · exact .refl
  · exact hcompare b _ value
  · rename_i target htarget
    have hfree := slot?_of_derefWithin htarget
    split
    · split
      · exact .refl
      · exact .set_ground hfree _
      · rename_i hother
        split
        · exact .refl
        · rename_i hne
          exact .set_alias hfree hne (slot?_of_derefWithin hother)
    · exact .refl
    · exact .set_ground hfree _

theorem unifyWithin (depth : Nat) (b : Bindings) (m n : Node) :
    b.Fills (unifyWithin depth b m n).2 := by
  induction depth generalizing b m n with
  | zero => exact .refl
  | succ depth ih =>
      unfold Bindings.unifyWithin
      split
      · exact .refl
      · exact .refl
      · exact .refl
      · rename_i v hsame _
        obtain rfl := Nat.succ.inj hsame
        exact bindSlotBy ih _ v.index _
      · rename_i v hsame _ _
        obtain rfl := Nat.succ.inj hsame
        exact bindSlotBy ih _ v.index _
      · rename_i hsame
        obtain rfl := Nat.succ.inj hsame
        split
        · exact compareAll ih _ _
        · exact .refl
      · exact .refl

theorem unifyTriple (b : Bindings) (pattern fact : Triple) :
    b.Fills (b.unifyTriple pattern fact).2 :=
  compareAll (fun b m n => unifyWithin _ b m n) b _

theorem of_matching? {pattern fact : Triple} (h : b.matching? pattern fact = some b') :
    b.Fills b' := by
  have hfills := unifyTriple b pattern fact
  unfold matching? at h
  split at h
  · rename_i hresult
    cases h
    rwa [hresult] at hfills
  · cases h

theorem bind (b : Bindings) (target value : Node) : b.Fills (b.bind target value).2 := by
  cases target with
  | var v => exact bindSlotBy (fun b m n => unifyWithin _ b m n) b v.index value
  | _ => exact unifyWithin _ b _ _

theorem of_evolves (h : b.Evolves b') : b.Fills b' := by
  induction h with
  | refl => exact .refl
  | tail _ hstep ih =>
      obtain ⟨target, value, rfl⟩ := hstep
      exact ih.trans (bind _ target value)

end Fills

/-! ## What is bound stays -/

/-- Every slot that holds a node goes on holding it. -/
def Retains (b b' : Bindings) : Prop := ∀ i n, b.held? i = some n → b'.held? i = some n

theorem deref_of_held? {i : Nat} {n : Node} (h : b.held? i = some n) :
    b.deref i = some (.ground n) := by
  rw [deref, derefWithin, slot?_of_held? h]

namespace Retains

variable {b'' : Bindings}

theorem refl : b.Retains b := fun _ _ h => h

theorem trans (h : b.Retains b') (k : b'.Retains b'') : b.Retains b'' :=
  fun i n hi => k i n (h i n hi)

end Retains

namespace Fills

/-- What is no unbound slot stays as it is. -/
theorem slot?_eq (h : b.Fills b') {i : Nat} {s : Slot} (hi : b.slot? i = some s)
    (hbound : s ≠ .unbound) : b'.slot? i = some s := by
  induction h with
  | refl => exact hi
  | @tail b₁ _ _ hstep ih =>
      obtain ⟨target, _, ht, _, rfl⟩ := hstep
      have hne : target ≠ i := by
        rintro rfl
        rw [ih] at ht
        exact hbound (Option.some.inj ht)
      rwa [slot?_set, if_neg hne]

theorem length_eq (h : b.Fills b') : b'.length = b.length := by
  induction h with
  | refl => rfl
  | tail _ hstep ih =>
      obtain ⟨target, s, _, _, rfl⟩ := hstep
      rw [length_set, ih]

theorem retains (h : b.Fills b') : b.Retains b' := fun i n hi => by
  rw [held?, h.slot?_eq (slot?_of_held? hi) (by simp)]

end Fills

theorem Retains.of_evolves (h : b.Evolves b') : b.Retains b' := (Fills.of_evolves h).retains

end Bindings

/-- The procedure changes an environment by binding only. -/
def Procedure.Binds (procedure : Procedure) : Prop :=
  ∀ (ctx : CallContext) (args : List Node) (st : CallState),
    st.bindings.Evolves (procedure ctx args st).2.bindings

/-- The builtin does so in bodies and in heads. -/
def Builtin.Binds (b : Builtin) : Prop := Procedure.Binds b.body ∧ Procedure.Binds b.head

variable {registry : Registry} {ctx : CallContext} {st : CallState}

theorem Call.evolves_holds {c : Call}
    (hbinds : ∀ b, registry.get? c.name = some b → Procedure.Binds b.body) (ctx : CallContext)
    (st : CallState) : st.bindings.Evolves (c.holds registry ctx st).2.bindings := by
  unfold holds
  cases hb : registry.get? c.name with
  | none => exact .refl
  | some b => exact hbinds b hb ctx _ st

theorem Call.evolves_act {c : Call}
    (hbinds : ∀ b, registry.get? c.name = some b → Procedure.Binds b.head) (ctx : CallContext)
    (st : CallState) : st.bindings.Evolves (c.act registry ctx st).bindings := by
  unfold act
  cases hb : registry.get? c.name with
  | none => exact .refl
  | some b => exact hbinds b hb ctx _ st

theorem solid_allHold {ask : Call → CallState → Bool × CallState} {calls : List Call}
    (hask : ∀ c ∈ calls, ∀ st : CallState, st.bindings.Evolves (ask c st).2.bindings)
    (h : st.bindings.Solid) : (allHold ask calls st).2.bindings.Solid := by
  induction calls generalizing st with
  | nil => exact h
  | cons c calls ih =>
      have hfirst := h.evolves (hask c (List.mem_cons_self ..) st)
      unfold allHold
      cases hanswer : ask c st with
      | mk answer st' =>
          rw [hanswer] at hfirst
          cases answer with
          | true => exact ih (fun d hd => hask d (List.mem_cons_of_mem _ hd)) hfirst
          | false => exact hfirst

/-- The head of a rule draws ground conclusions if its calls only bind. -/
theorem isGround_of_mem_conclude {r : Rule}
    (hact : ∀ c, Clause.call c ∈ r.head → ∀ st : CallState,
      st.bindings.Evolves (c.act registry ctx st).bindings)
    (h : st.bindings.Solid) : ∀ t ∈ (r.conclude registry ctx st).1, t.isGround = true := by
  suffices hclauses : ∀ (clauses : List Clause) (drawn : OrderedSet Triple) (st : CallState),
      (∀ c, Clause.call c ∈ clauses → Clause.call c ∈ r.head) → st.bindings.Solid →
      (∀ t ∈ drawn.members, t.isGround = true) →
      ∀ t ∈ (clauses.foldl (Clause.carryOut registry ctx) (drawn, st)).1.members,
        t.isGround = true from
    hclauses r.head .empty st (fun _ hc => hc) h fun _ ht => nomatch ht
  intro clauses
  induction clauses with
  | nil => exact fun _ _ _ _ hdrawn => hdrawn
  | cons clause clauses ih =>
      intro drawn st hhead hsolid hdrawn
      rw [List.foldl_cons]
      have hrest := fun c hc => hhead c (List.mem_cons_of_mem clause hc)
      cases clause with
      | pattern p =>
          have hone := hsolid.instantiate st.world.supply p
          refine ih _ _ hrest hone.2 fun t ht => ?_
          rcases OrderedSet.mem_insert ht with ht | rfl
          · exact hdrawn t ht
          · exact hone.1
      | call c =>
          have hone := hact c (hhead c (List.mem_cons_self ..)) st
          exact ih _ _ hrest (hsolid.evolves hone) hdrawn

/-! ## The standard builtins -/

namespace Builtin

variable {args : List Node}

theorem evolves_refl : st.bindings.Evolves st.bindings := .refl

theorem evolves_bind (st : CallState) (target value : Node) :
    st.bindings.Evolves (st.bind target value).2.bindings := .single ⟨target, value, rfl⟩

theorem evolves_bindNumber (st : CallState) (target : Node) (value : Numeric) :
    st.bindings.Evolves (st.bindNumber target value).2.bindings := by
  unfold CallState.bindNumber
  split
  · exact evolves_refl
  · exact evolves_bind st target _

theorem evolves_bindNumber? (st : CallState) (target : Node) (value : Option Numeric) :
    st.bindings.Evolves (st.bindNumber? target value).2.bindings := by
  cases value with
  | some n => exact evolves_bindNumber st target n
  | none => exact evolves_refl

theorem evolves_bindEach (pairs : List (Node × Node)) (st : CallState) :
    st.bindings.Evolves (bindEach pairs st).2.bindings := by
  induction pairs generalizing st with
  | nil => exact evolves_refl
  | cons pair pairs ih =>
      have hbound := evolves_bind st pair.1 pair.2
      unfold bindEach
      cases hresult : st.bind pair.1 pair.2 with
      | mk answer st₁ =>
          rw [hresult] at hbound
          cases answer with
          | true => exact hbound.trans (ih st₁)
          | false => exact hbound

theorem bindings_effect (st : CallState) (ctx : CallContext) (change : Effects → Effects) :
    (st.effect ctx change).bindings = st.bindings := by
  unfold CallState.effect
  split <;> rfl

theorem binds_of_body {b : Builtin} (hbody : Procedure.Binds b.body) (hhead : b.head = b.body) :
    b.Binds := ⟨hbody, hhead ▸ hbody⟩

theorem binds_of_test (name : String) (arity : Nat) (test : List Node → Bool) :
    (ofTest name arity test).Binds := binds_of_body (fun _ _ _ => evolves_refl) rfl

theorem binds_arithmetic (name : String) (whole : Int64 → Int64 → WholeResult)
    (real : Double → Double → Option Double) : (arithmetic name whole real).Binds := by
  refine binds_of_body (fun ctx args st => ?_) rfl
  simp only [arithmetic]
  split
  · split
    · split
      · split
        · exact evolves_bindNumber st _ _
        · exact evolves_bindNumber? st _ _
        · exact evolves_refl
      · exact evolves_bindNumber? st _ _
    · exact evolves_refl
  · exact evolves_refl

theorem binds_successor : successor.Binds := by
  refine binds_of_body (fun ctx args st => ?_) rfl
  simp only [successor]
  split
  · split
    · exact evolves_bindNumber? st _ _
    · exact evolves_bindNumber st _ _
    · exact evolves_refl
  · exact evolves_refl

theorem binds_extremum (name : String) (takesFirst : Ordering → Bool) :
    (extremum name takesFirst).Binds := by
  refine binds_of_body (fun ctx args st => ?_) rfl
  simp only [extremum]
  split
  · split
    · split
      · exact evolves_bind st _ _
      · exact evolves_refl
    · exact evolves_refl
  · exact evolves_refl

theorem binds_concatenation (name : String) (make : String → Node) :
    (concatenation name make).Binds := by
  refine binds_of_body (fun ctx args st => ?_) rfl
  simp only [concatenation]
  split
  · exact evolves_refl
  · split
    · exact evolves_bind st _ _
    · exact evolves_refl

theorem binds_regexMatch : regexMatch.Binds := by
  refine binds_of_body (fun ctx args st => ?_) rfl
  simp only [regexMatch]
  split
  · split
    · split
      · exact evolves_bindEach _ st
      · exact evolves_refl
    · exact evolves_refl
  · exact evolves_refl

theorem binds_textLength : textLength.Binds := by
  refine binds_of_body (fun ctx args st => ?_) rfl
  simp only [textLength]
  split
  · split
    · exact evolves_bind st _ _
    · exact evolves_refl
  · exact evolves_refl

theorem binds_membership (name : String) (expected : Bool) : (membership name expected).Binds := by
  refine binds_of_body (fun ctx args st => ?_) rfl
  simp only [membership]
  split
  · exact evolves_refl
  · exact evolves_refl

theorem binds_chainLength : chainLength.Binds := by
  refine binds_of_body (fun ctx args st => ?_) rfl
  simp only [chainLength]
  split
  · split
    · exact evolves_bind st _ _
    · exact evolves_refl
  · exact evolves_refl

theorem binds_chainEntry : chainEntry.Binds := by
  refine binds_of_body (fun ctx args st => ?_) rfl
  simp only [chainEntry]
  split
  · split
    · exact evolves_bind st _ _
    · exact evolves_refl
  · exact evolves_refl

theorem binds_noValue : noValue.Binds := by
  refine binds_of_body (fun ctx args st => ?_) rfl
  simp only [noValue]
  split
  · exact evolves_refl
  · exact evolves_refl

/-- Asking for removals binds nothing. -/
theorem binds_removal (name : String) {remove : CallState → CallContext → Triple → CallState}
    (hremove : ∀ st ctx t, (remove st ctx t).bindings = st.bindings) :
    (removal name remove).Binds := by
  refine ⟨fun _ _ _ => evolves_refl, fun ctx args st => ?_⟩
  simp only [removal]
  generalize targets ctx args = ts
  induction ts generalizing st with
  | nil => exact evolves_refl
  | cons t ts ih =>
      have hrest := ih (remove st ctx t)
      rwa [hremove] at hrest

theorem binds_hidePredicate : hidePredicate.Binds := by
  refine binds_of_body (fun ctx args st => ?_) rfl
  simp only [hidePredicate]
  split
  · split
    · split
      · exact evolves_refl
      · change st.bindings.Evolves (st.hide ctx _).bindings
        rw [CallState.hide, bindings_effect]
        exact evolves_refl
    · exact evolves_refl
  · exact evolves_refl

theorem binds_printLine : printLine.Binds := by
  refine binds_of_body (fun ctx args st => ?_) rfl
  simp only [printLine]
  split
  · exact evolves_refl
  · exact evolves_refl

theorem binds_makeTemp : makeTemp.Binds := by
  refine binds_of_body (fun ctx args st => ?_) rfl
  simp only [makeTemp]
  split
  · exact evolves_bind st.freshBlank.2 _ _
  · exact evolves_refl

theorem binds_makeSkolem : makeSkolem.Binds := by
  refine binds_of_body (fun ctx args st => ?_) rfl
  simp only [makeSkolem]
  split
  · split
    · exact evolves_bind st _ _
    · exact evolves_refl
  · exact evolves_refl

theorem binds_now : now.Binds := by
  refine binds_of_body (fun ctx args st => ?_) rfl
  simp only [now]
  split
  · exact evolves_bind st _ _
  · exact evolves_refl

theorem binds_of_mem_standard : ∀ b ∈ standard, b.Binds := by
  apply forall_standard
  · exact binds_of_test
  · exact binds_arithmetic
  · exact binds_extremum
  · exact fun name make _ => binds_concatenation name make
  · exact binds_membership
  · simp only [List.forall_mem_cons, List.not_mem_nil, false_imp_iff, implies_true, and_true]
    exact ⟨binds_successor, binds_regexMatch, binds_textLength, binds_chainLength,
      binds_chainEntry, binds_noValue, binds_removal _ fun st ctx _ => bindings_effect st ctx _,
      binds_removal _ fun st ctx _ => bindings_effect st ctx _, binds_hidePredicate,
      binds_printLine, binds_makeTemp, binds_makeSkolem, binds_now⟩

end Builtin

theorem Registry.binds_standard : ∀ name b, Registry.standard.get? name = some b → b.Binds :=
  fun _ b hb => Builtin.binds_of_mem_standard b (Registry.mem_standard hb)

end Entailment
