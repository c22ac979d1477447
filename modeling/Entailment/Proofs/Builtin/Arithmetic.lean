import Entailment.Proofs.Builtin.Binding
import Entailment.Proofs.Builtin.Calling
import Entailment.Proofs.Builtin.Reliance

/-!
# Arithmetic of integers

An operation on two integers binds its last argument to the exact result if that is a
64-bit integer, and to no other integer if it is not.  Each of them returns and the run
goes on, except that the smallest integer cannot be divided by minus one.
-/

namespace Entailment

/-- The operations that take integers to an integer; the last one has one operand. -/
inductive WholeOperation where
  | sum
  | difference
  | product
  | quotient
  | least
  | greatest
  | successor
deriving DecidableEq

namespace WholeOperation

def name : WholeOperation → String
  | sum => "sum"
  | difference => "difference"
  | product => "product"
  | quotient => "quotient"
  | least => "min"
  | greatest => "max"
  | successor => "addOne"

def operands (op : WholeOperation) (a b : Node) : List Node :=
  match op with
  | successor => [a]
  | _ => [a, b]

def call (op : WholeOperation) (a b target : Node) : Call := ⟨op.name, op.operands a b ++ [target]⟩

/-- The result as an integer, if there is one. -/
def result? (op : WholeOperation) (i j : Int) : Option Int :=
  match op with
  | sum => some (i + j)
  | difference => some (i - j)
  | product => some (i * j)
  | quotient => if j ≠ 0 ∧ j ∣ i then some (i / j) else none
  | least => some (min i j)
  | greatest => some (max i j)
  | successor => some (i + 1)

/-- The smallest integer is divided by minus one. -/
def Overflows (op : WholeOperation) (i j : Int64) : Prop :=
  op = quotient ∧ i = Int64.minValue ∧ j.toInt = -1

theorem not_overflows {op : WholeOperation} {i j : Int64} (h : op ≠ quotient) :
    ¬ op.Overflows i j :=
  fun hover => h hover.1

end WholeOperation

/-! ## Results of operations on integers -/

namespace WholeResult

/-- The outcome gives the result if it is an integer of 64 bits, and says so if it is not. -/
inductive Tells (r : Option Int) : WholeResult → Prop where
  | exact {n : Int64} : r = some n.toInt → Tells r (.exact n)
  | inexact : (∀ n : Int64, r ≠ some n.toInt) → Tells r .inexact

theorem tells_ofInt (n : Int) : Tells (some n) (ofInt n) := by
  unfold ofInt
  cases h : Int64.checked n with
  | some m => exact .exact (congrArg some (Int64.checked_eq_some_iff.1 h).symm)
  | none =>
      refine .inexact fun m hm => ?_
      rw [Int64.checked_eq_some_iff.2 (Option.some.inj hm).symm] at h
      cases h

theorem tells_quotient {i j : Int64} (h : ¬ WholeOperation.quotient.Overflows i j) :
    Tells (WholeOperation.quotient.result? i.toInt j.toInt) (quotient i j) := by
  have hnone : ¬ (j.toInt ≠ 0 ∧ j.toInt ∣ i.toInt) → ∀ n : Int64,
      WholeOperation.quotient.result? i.toInt j.toInt ≠ some n.toInt := by
    intro hno n hn
    rw [WholeOperation.result?, if_neg hno] at hn
    cases hn
  unfold quotient
  split
  · rename_i hzero
    exact .inexact (hnone fun hdvd => hdvd.1 hzero)
  · rename_i hzero
    split
    · rename_i hextreme
      exact absurd ⟨rfl, hextreme.2, hextreme.1⟩ h
    · split
      · rename_i hrest
        have hdvd : j.toInt ∣ i.toInt := Int.dvd_iff_tmod_eq_zero.2 hrest
        rw [WholeOperation.result?, if_pos ⟨hzero, hdvd⟩, Int.tdiv_eq_ediv_of_dvd hdvd]
        exact tells_ofInt _
      · rename_i hrest
        exact .inexact (hnone fun hdvd => hrest (Int.dvd_iff_tmod_eq_zero.1 hdvd.2))

theorem quotient_of_overflows {i j : Int64} (h : WholeOperation.quotient.Overflows i j) :
    quotient i j = .overflow := by
  obtain ⟨-, rfl, hj⟩ := h
  rw [quotient, hj]
  rfl

end WholeResult

/-! ## Integers among the terms -/

namespace Node

variable {n : Node} {i : Int64}

theorem ofNode_of_whole? (h : n.whole? = some i) : Numeric.ofNode n = some (.int i) := by
  cases n with
  | literal l =>
      cases l with
      | integer m =>
          cases h
          rfl
      | typed text datatype =>
          change ((Literal.typed text datatype).integer?.map Numeric.int).or _ = _
          rw [show (Literal.typed text datatype).integer? = some i from h]
          rfl
      | _ => cases h
  | _ => cases h

end Node

namespace Bindings

variable {b : Bindings} {l : Literal}

/-- Nothing has changed, or an unbound slot holds the value. -/
def Takes (b : Bindings) (value : Node) (b' : Bindings) : Prop :=
  b' = b ∨ ∃ i, b.slot? i = some .unbound ∧ b' = b.set i (.ground value)

theorem Takes.eq_of_slot? {value m : Node} {b' : Bindings} {i : Nat} (h : b.Takes value b')
    (hfree : b.slot? i = some .unbound) (hm : b'.slot? i = some (.ground m)) : m = value := by
  rcases h with rfl | ⟨j, -, rfl⟩
  · rw [hfree] at hm
    cases hm
  · rw [slot?_set] at hm
    split at hm
    · split at hm
      · cases hm
        rfl
      · cases hm
    · rw [hfree] at hm
      cases hm

theorem takes_bindSlotBy {compare : Comparison}
    (hcompare : ∀ n, b.Takes (.literal l) (compare b n (.literal l)).2) (i : Nat) :
    b.Takes (.literal l) (bindSlotBy compare b i (.literal l)).2 := by
  unfold bindSlotBy
  split
  · exact .inl rfl
  · exact hcompare _
  · rename_i target htarget
    exact .inr ⟨target, slot?_of_derefWithin htarget, rfl⟩

theorem takes_unifyWithin (depth : Nat) (n : Node) :
    b.Takes (.literal l) (unifyWithin depth b n (.literal l)).2 := by
  induction depth generalizing n with
  | zero => exact .inl rfl
  | succ depth ih =>
      cases n with
      | var v => exact takes_bindSlotBy ih v.index
      | _ => exact .inl rfl

theorem takes_bind (b : Bindings) (target : Node) (l : Literal) :
    b.Takes (.literal l) (b.bind target (.literal l)).2 := by
  cases target with
  | var v =>
      refine takes_bindSlotBy (fun n => ?_) v.index
      exact takes_unifyWithin _ n
  | _ => exact takes_unifyWithin _ _

end Bindings

/-- A number that is bound is all that changes. -/
theorem CallState.takes_bindNumber (st : CallState) (target : Node) (value : Numeric) :
    st.bindings.Takes value.toNode (st.bindNumber target value).2.bindings := by
  unfold bindNumber
  split
  · exact .inl rfl
  · cases value <;> exact st.bindings.takes_bind target _

/-! ## Calls on integers -/

namespace WholeOperation

open Bindings CallState

variable {op : WholeOperation} {i j : Int64} {target : Node} {st : CallState}

/-- What a call on two integers does with its target. -/
inductive Outcome (op : WholeOperation) (i j : Int64) (target : Node) (st : CallState) :
    Bool × CallState → Prop where
  | number {n : Int64} : op.result? i.toInt j.toInt = some n.toInt →
      Outcome op i j target st (st.bindNumber target (.int n))
  | operand {m : Node} {n : Int64} : op.result? i.toInt j.toInt = some n.toInt →
      m.whole? = some n → Outcome op i j target st (st.bind target m)
  | approximate (value : Option Double) : (∀ n : Int64, op.result? i.toInt j.toInt ≠ some n.toInt) →
      ¬ op.Overflows i j → Outcome op i j target st (st.bindNumber? target (value.map .float))
  | overflow : op.Overflows i j → Outcome op i j target st (false, st.overflow)

/-- A call of an operation that works on integers first. -/
theorem outcome_arithmetic {a b : Node} {whole : Int64 → Int64 → WholeResult}
    {real : Double → Double → Option Double} {name : String} (ctx : CallContext)
    (ha : a.whole? = some i) (hb : b.whole? = some j)
    (h : whole i j = .overflow ∧ op.Overflows i j ∨
      ¬ op.Overflows i j ∧ (whole i j).Tells (op.result? i.toInt j.toInt)) :
    Outcome op i j target st
      ((Builtin.arithmetic name whole real).body ctx [a, b, target] st) := by
  simp only [Builtin.arithmetic, Node.ofNode_of_whole? ha, Node.ofNode_of_whole? hb]
  rcases h with ⟨hresult, hover⟩ | ⟨hover, htells⟩
  · rw [hresult]
    exact .overflow hover
  · cases hresult : whole i j with
    | exact n =>
        rw [hresult] at htells
        cases htells with
        | exact hn => exact .number hn
    | inexact =>
        rw [hresult] at htells
        cases htells with
        | inexact hno => exact .approximate _ hno hover
    | overflow =>
        rw [hresult] at htells
        cases htells

/-- A call that binds one of its operands. -/
theorem outcome_extremum {a b : Node} {takesFirst : Ordering → Bool} {name : String}
    (ctx : CallContext) (ha : a.whole? = some i) (hb : b.whole? = some j)
    (h : op.result? i.toInt j.toInt =
      some (if takesFirst (compare i.toInt j.toInt) then i.toInt else j.toInt)) :
    Outcome op i j target st
      ((Builtin.extremum name takesFirst).body ctx [a, b, target] st) := by
  simp only [Builtin.extremum, Node.ofNode_of_whole? ha, Node.ofNode_of_whole? hb,
    Numeric.compare?]
  cases hfirst : takesFirst (compare i.toInt j.toInt) with
  | true =>
      rw [hfirst] at h
      exact .operand h ha
  | false =>
      rw [hfirst] at h
      exact .operand h hb

theorem outcome_successor {a : Node} (ctx : CallContext) (ha : a.whole? = some i) :
    Outcome successor i j target st (Builtin.successor.body ctx [a, target] st) := by
  have htells := WholeResult.tells_ofInt (i.toInt + 1)
  simp only [Builtin.successor, Node.ofNode_of_whole? ha]
  rw [WholeResult.ofInt] at htells
  cases hresult : Int64.checked (i.toInt + 1) with
  | some n =>
      rw [hresult] at htells
      cases htells with
      | exact hn => exact .number hn
  | none =>
      rw [hresult] at htells
      cases htells with
      | inexact hno => exact .approximate none hno (not_overflows (by decide))

theorem quotient_cases (i j : Int64) :
    WholeResult.quotient i j = .overflow ∧ quotient.Overflows i j ∨
      ¬ quotient.Overflows i j ∧
        (WholeResult.quotient i j).Tells (quotient.result? i.toInt j.toInt) := by
  by_cases hover : quotient.Overflows i j
  · exact .inl ⟨WholeResult.quotient_of_overflows hover, hover⟩
  · exact .inr ⟨hover, WholeResult.tells_quotient hover⟩

theorem holds_arithmetics {c : Builtin} (hc : c ∈ Builtin.arithmetics) (args : List Node)
    (ctx : CallContext) (st : CallState) :
    (Call.mk c.name args).holds Registry.standard ctx st =
      c.body ctx (args.map st.bindings.valueOr) st := by
  refine Call.holds_standard ?_ args ctx st
  simp only [Builtin.standard, List.mem_append]
  tauto

theorem outcome_call {a b : Node} (ctx : CallContext) (ha : a.whole? = some i)
    (hb : b.whole? = some j) :
    Outcome op i j (st.bindings.valueOr target) st
      ((op.call a b target).holds Registry.standard ctx st) := by
  have hargs : [a, b, target].map st.bindings.valueOr = [a, b, st.bindings.valueOr target] := by
    simp only [List.map_cons, List.map_nil, Bindings.valueOr_of_whole? _ ha,
      Bindings.valueOr_of_whole? _ hb]
  have hbinary : ∀ c ∈ Builtin.arithmetics,
      Outcome op i j (st.bindings.valueOr target) st
        (c.body ctx [a, b, st.bindings.valueOr target] st) →
      Outcome op i j (st.bindings.valueOr target) st
        ((Call.mk c.name [a, b, target]).holds Registry.standard ctx st) := by
    intro c hc houtcome
    rw [holds_arithmetics hc, hargs]
    exact houtcome
  cases op with
  | sum =>
      exact hbinary _ (.head _)
        (outcome_arithmetic ctx ha hb (.inr ⟨not_overflows (by decide), WholeResult.tells_ofInt _⟩))
  | difference =>
      exact hbinary _ (.tail _ (.head _))
        (outcome_arithmetic ctx ha hb (.inr ⟨not_overflows (by decide), WholeResult.tells_ofInt _⟩))
  | product =>
      exact hbinary _ (.tail _ (.tail _ (.head _)))
        (outcome_arithmetic ctx ha hb (.inr ⟨not_overflows (by decide), WholeResult.tells_ofInt _⟩))
  | quotient =>
      exact hbinary _ (.tail _ (.tail _ (.tail _ (.head _))))
        (outcome_arithmetic ctx ha hb (quotient_cases i j))
  | least =>
      refine hbinary _ (.tail _ (.tail _ (.tail _ (.tail _ (.head _)))))
        (outcome_extremum ctx ha hb ?_)
      rw [result?, Int.min_def]
      simp only [Std.isLE_compare]
  | greatest =>
      refine hbinary _ (.tail _ (.tail _ (.tail _ (.tail _ (.tail _ (.head _))))))
        (outcome_extremum ctx ha hb ?_)
      rw [result?, Int.max_comm, Int.max_def]
      simp only [Std.isGE_compare]
  | successor =>
      have hcall := holds_arithmetics (c := Builtin.successor) (by simp [Builtin.arithmetics])
        [a, target] ctx st
      simp only [List.map_cons, List.map_nil, Bindings.valueOr_of_whole? _ ha] at hcall
      exact hcall ▸ outcome_successor ctx ha

/-- The smallest integer divided by minus one is no integer of 64 bits. -/
theorem Overflows.result?_ne (h : op.Overflows i j) (n : Int64) :
    op.result? i.toInt j.toInt ≠ some n.toInt := by
  obtain ⟨rfl, rfl, hj⟩ := h
  have hresult : quotient.result? Int64.minValue.toInt (-1) = some 9223372036854775808 := by decide
  have hlt := n.toInt_lt
  rw [hj, hresult]
  intro heq
  rw [← Option.some.inj heq] at hlt
  exact absurd hlt (by decide)

namespace Outcome

variable {result : Bool × CallState}

theorem isStopped_iff (h : Outcome op i j target st result) :
    result.2.world.isStopped = true ↔ st.world.isStopped = true ∨ op.Overflows i j := by
  cases h with
  | number hn =>
      rw [(concur_bindNumber rfl target _).goesOn]
      exact (or_iff_left fun hover => hover.result?_ne _ hn).symm
  | operand hn =>
      exact (or_iff_left fun hover => hover.result?_ne _ hn).symm
  | approximate value hno hover =>
      rw [(concur_bindNumber? rfl target _).goesOn]
      exact (or_iff_left hover).symm
  | overflow hover => exact iff_of_true rfl (.inr hover)

/-- A slot that takes an integer takes the exact result. -/
theorem result?_of_slot? (h : Outcome op i j target st result) {k : Nat} {n : Int64}
    (hfree : st.bindings.slot? k = some .unbound)
    (hn : result.2.bindings.slot? k = some (.ground (.literal (.integer n)))) :
    op.result? i.toInt j.toInt = some n.toInt := by
  cases h with
  | number hexact =>
      cases (takes_bindNumber st target _).eq_of_slot? hfree hn
      exact hexact
  | @operand m _ hexact hm =>
      obtain ⟨l, rfl⟩ := Node.literal_of_whole? hm
      cases (st.bindings.takes_bind target l).eq_of_slot? hfree hn
      cases hm
      exact hexact
  | approximate value =>
      cases value with
      | some d => cases (takes_bindNumber st target (.float d)).eq_of_slot? hfree hn
      | none => exact nomatch hfree.symm.trans hn
  | overflow => exact nomatch hfree.symm.trans hn

/-- A variable without a value takes the result. -/
theorem slot?_of_unbound {v : Var} {last : Nat} {n : Int64}
    (h : Outcome op i j (.var v) st result)
    (hfree : st.bindings.deref v.index = some (.unbound last))
    (hn : op.result? i.toInt j.toInt = some n.toInt) :
    result.1 = true ∧ ∃ m : Node, m.whole? = some n ∧
      result.2.bindings.slot? last = some (.ground m) := by
  have hlast : st.bindings.slot? last = some .unbound := slot?_of_derefWithin hfree
  have hbind : ∀ {m : Node}, m.whole? = some n → (st.bind (.var v) m).1 = true ∧
      ∃ k : Node, k.whole? = some n ∧
        (st.bind (.var v) m).2.bindings.slot? last = some (.ground k) := by
    intro m hm
    obtain ⟨l, rfl⟩ := Node.literal_of_whole? hm
    refine ⟨congrArg Prod.fst (bind_of_unbound hfree rfl), .literal l, hm, ?_⟩
    rw [CallState.bind, bind_of_unbound hfree rfl]
    exact (slot?_set _ _ _ _).trans (by rw [if_pos rfl, if_pos (lt_length_of_slot? hlast)])
  cases h with
  | @number n' hexact =>
      obtain rfl := Int64.toInt_inj.1 (Option.some.inj (hexact.symm.trans hn))
      exact hbind (m := .literal (.integer n')) rfl
  | @operand m n' hexact hm =>
      obtain rfl := Int64.toInt_inj.1 (Option.some.inj (hexact.symm.trans hn))
      exact hbind hm
  | approximate _ hno => exact absurd hn (hno n)
  | overflow hover => exact absurd hn (hover.result?_ne n)

end Outcome

/-- An operation on integers stops the run just where the smallest integer is divided by minus
one.  A slot that takes an integer from it takes the exact result, and a variable without a
value takes the result if that is an integer of 64 bits. -/
theorem holds_exact (op : WholeOperation) {a b : Node} {i j : Int64} (target : Node)
    (ctx : CallContext) (st : CallState) (ha : a.whole? = some i) (hb : b.whole? = some j) :
    let result := (op.call a b target).holds Registry.standard ctx st
    (result.2.world.isStopped = true ↔ st.world.isStopped = true ∨ op.Overflows i j) ∧
    (∀ (k : Nat) (n : Int64), st.bindings.slot? k = some .unbound →
      result.2.bindings.slot? k = some (.ground (.literal (.integer n))) →
      op.result? i.toInt j.toInt = some n.toInt) ∧
    (∀ (v : Var) (last : Nat) (n : Int64), target = .var v →
      st.bindings.deref v.index = some (.unbound last) →
      op.result? i.toInt j.toInt = some n.toInt →
      result.1 = true ∧ ∃ m : Node, m.whole? = some n ∧
        result.2.bindings.slot? last = some (.ground m)) := by
  have houtcome : op.Outcome i j (st.bindings.valueOr target) st _ := outcome_call ctx ha hb
  refine ⟨houtcome.isStopped_iff, fun k n => houtcome.result?_of_slot?, ?_⟩
  rintro v last n rfl hfree hn
  rw [valueOr_of_unbound hfree] at houtcome
  exact houtcome.slot?_of_unbound hfree hn

theorem holds_exact_carry :
    (Node.integer Int64.maxValue).whole? = some Int64.maxValue ∧
      (Node.integer 1).whole? = some 1 ∧
      ∀ n : Int64,
        ((sum.call (.integer Int64.maxValue) (.integer 1) (.var ⟨"x", 0⟩)).holds Registry.standard
          .blind ⟨.empty 1, {}, {}⟩).2.bindings.slot? 0 ≠
            some (.ground (.literal (.integer n))) := by
  refine ⟨rfl, rfl, fun n hn => ?_⟩
  have hexact := (holds_exact sum (a := .integer Int64.maxValue) (b := .integer 1)
    (.var ⟨"x", 0⟩) .blind ⟨.empty 1, {}, {}⟩ rfl rfl).2.1 0 n rfl hn
  have hsum : Int64.maxValue.toInt + (1 : Int64).toInt = 9223372036854775808 := by decide
  have hlt := n.toInt_lt
  rw [result?, hsum] at hexact
  exact absurd (Option.some.inj hexact) (Int.ne_of_gt hlt)

/-- The smallest integer divided by minus one is an integer, but the run stops. -/
theorem not_holds_exact_smallest :
    quotient.result? Int64.minValue.toInt (-1) = some 9223372036854775808 ∧
      ((quotient.call (.integer Int64.minValue) (.integer (-1)) (.var ⟨"x", 0⟩)).holds
        Registry.standard .blind ⟨.empty 1, {}, {}⟩).2.world.isStopped = true := by
  refine ⟨by decide, ?_⟩
  exact (outcome_call .blind rfl rfl).isStopped_iff.2 (.inr ⟨rfl, rfl, by decide⟩)

end WholeOperation

end Entailment
