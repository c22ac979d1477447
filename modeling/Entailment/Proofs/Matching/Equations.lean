import Entailment.Proofs.Matching.Determinacy
import Entailment.Proofs.Matching.Unification

/-!
# Environments as closures of equations

Binding a variable, binding a slot and unifying triples all ask for nodes to be equal.
Such an equation is accepted if and only if some ground assignment solves it together
with the equations accepted before, and one that is not accepted leaves the environment
as it was.  The environment that comes out of any number of requests is the closure of
the accepted equations: it gives a variable the value that they entail, and lets two
unbound variables end in one slot where they entail that the two are equal.  A wildcard
is equal to anything and makes no equation.
-/

namespace Entailment

/-! ## Equations -/

/-- Two nodes that are to be equal. -/
abbrev Equation := Node × Node

namespace Equation

/-- One of the nodes is a wildcard. -/
def isOpen (q : Equation) : Bool := q.1.isAny || q.2.isAny

def HoldsUnder (σ : Assignment) (q : Equation) : Prop := (q.1.under σ == q.2.under σ) = true

/-- No functor of the equation has variables or functors in it, and there is a slot for
each variable. -/
structure Plain (size : Nat) (q : Equation) : Prop where
  left : q.1.Shallow
  right : q.2.Shallow
  slots : ∀ i ∈ q.1.indexes ++ q.2.indexes, i < size

theorem plain_of_flat {size : Nat} {q : Equation} (hleft : q.1.isFunctor = false)
    (hright : q.2.isFunctor = false) (hslots : ∀ i ∈ q.1.indexes ++ q.2.indexes, i < size) :
    q.Plain size :=
  ⟨Node.shallow_of_flat hleft, Node.shallow_of_flat hright, hslots⟩

theorem meets_iff_of_isOpen {q : Equation} (h : q.isOpen = false) (σ : Assignment) :
    q.1.Meets σ q.2 ↔ q.HoldsUnder σ := by
  simp only [isOpen, Bool.or_eq_false_iff] at h
  rw [Node.meets_iff, h.1, h.2]
  simp [HoldsUnder]

end Equation

/-- The assignment makes all the equations hold. -/
def Solution (E : List Equation) (σ : Assignment) : Prop := ∀ q ∈ E, q.HoldsUnder σ

theorem solution_append {E : List Equation} {q : Equation} {σ : Assignment} :
    Solution (E ++ [q]) σ ↔ Solution E σ ∧ q.HoldsUnder σ := by
  simp only [Solution, List.mem_append, List.mem_singleton]
  constructor
  · intro h
    exact ⟨fun p hp => h p (Or.inl hp), h q (Or.inr rfl)⟩
  · rintro ⟨hall, hq⟩ p (hp | rfl)
    · exact hall p hp
    · exact hq

/-- Some ground assignment solves the equations. -/
def Consistent (E : List Equation) : Prop := ∃ σ : Assignment, σ.Ground ∧ Solution E σ

/-- Every ground assignment that solves the equations makes the nodes equal. -/
def Entails (E : List Equation) (m n : Node) : Prop :=
  ∀ σ : Assignment, σ.Ground → Solution E σ → (m.under σ == n.under σ) = true

namespace Bindings

/-- The environment is what the equations come to. -/
structure ClosureOf (b : Bindings) (E : List Equation) : Prop where
  /-- The target of every alias is a slot. -/
  in_range : ∀ i j, b.Links i j → j < b.length
  acyclic : ∀ i, ¬ Relation.TransGen b.Links i i
  /-- Following the aliases of a slot comes to an end before the guard against cycles. -/
  ends : ∀ i < b.length, ∃ links last, links < b.length ∧ b.Leads links i last ∧
    b.deref i = some last
  value_iff : ∀ v : Var, v.index < b.length → ∀ c : Node, c.isGround = true →
    ((∃ m, b.resolve (.var v) = some m ∧ (m == c) = true) ↔ Entails E (.var v) c)
  same_slot_iff : ∀ (v w : Var) (k l : Nat), b.deref v.index = some (.unbound k) →
    b.deref w.index = some (.unbound l) → (k = l ↔ Entails E (.var v) (.var w))

/-- The environment allows the solutions of the equations. -/
structure Reflects (b : Bindings) (E : List Equation) : Prop where
  chained : b.Chained
  allows_iff : ∀ σ, b.Allows σ ↔ Solution E σ

theorem reflects_empty (size : Nat) : (empty size).Reflects [] where
  chained := chained_empty size
  allows_iff σ := by simp [Solution, allows_empty]

namespace Reflects

variable {b : Bindings} {E : List Equation}

theorem closureOf (h : b.Reflects E) : b.ClosureOf E where
  in_range _ _ := h.chained.lt_length_of_links
  acyclic := h.chained.acyclic
  ends _ := h.chained.exists_deref
  value_iff v hv c hc := by
    rw [h.chained.resolve_iff_forced hv]
    simp only [h.allows_iff, Entails, Node.under_of_ground hc]
    rfl
  same_slot_iff v w k l hk hl := by
    rw [h.chained.same_end_iff_forced hk hl]
    simp only [h.allows_iff]
    rfl

end Reflects

/-! ## Refused equations change nothing -/

section Refusal

variable {b : Bindings} {compare compare' : Comparison} {n : Node}

theorem slot?_of_deref {i : Nat} {m : Node} (h : b.deref i = some (.ground m)) :
    ∃ j, b.slot? j = some (.ground m) := by
  obtain ⟨links, hleads⟩ := deref_eq_some_iff.1 h
  exact hleads.slot?_of_ground

/-- Only what slots hold is compared with the value that is bound. -/
theorem bindSlotBy_congr (i : Nat)
    (h : ∀ j m, b.slot? j = some (.ground m) → compare b m n = compare' b m n) :
    bindSlotBy compare b i n = bindSlotBy compare' b i n := by
  unfold bindSlotBy
  cases hi : b.deref i with
  | none => rfl
  | some last =>
      cases last with
      | unbound target => rfl
      | ground m =>
          obtain ⟨j, hj⟩ := slot?_of_deref hi
          exact h j m hj

theorem bindSlotBy_of_false (i : Nat)
    (h : ∀ j m, b.slot? j = some (.ground m) → (compare b m n).1 = false →
      (compare b m n).2 = b)
    (hfalse : (bindSlotBy compare b i n).1 = false) : (bindSlotBy compare b i n).2 = b := by
  unfold bindSlotBy at hfalse ⊢
  cases hi : b.deref i with
  | none => rfl
  | some last =>
      rw [hi] at hfalse
      cases last with
      | ground m =>
          obtain ⟨j, hj⟩ := slot?_of_deref hi
          exact h j m hj hfalse
      | unbound target =>
          cases n with
          | var v =>
              simp only at hfalse ⊢
              split at hfalse
              · simp_all
              · cases hfalse
              · split at hfalse <;> cases hfalse
          | _ => cases hfalse

end Refusal

section Shallow

variable {b : Bindings} {m n : Node}

theorem unify_any_left (b : Bindings) (n : Node) : b.unify .any n = (true, b) := by
  obtain ⟨more, hdepth⟩ := Nat.exists_eq_add_of_le (b.le_depthBound .any n)
  rw [unify, hdepth, Nat.add_right_comm]
  cases n <;> rfl

theorem unify_any_right (b : Bindings) (m : Node) : b.unify m .any = (true, b) := by
  obtain ⟨more, hdepth⟩ := Nat.exists_eq_add_of_le (b.le_depthBound m .any)
  rw [unify, hdepth, Nat.add_right_comm]
  cases m <;> rfl

/-- An equation with a wildcard holds, whatever is held. -/
theorem unify_of_isOpen (b : Bindings) {q : Equation} (h : q.isOpen = true) :
    b.unify q.1 q.2 = (true, b) := by
  rcases Bool.or_eq_true_iff.1 h with hleft | hright
  · rw [Node.eq_any_of_isAny hleft, unify_any_left]
  · rw [Node.eq_any_of_isAny hright, unify_any_right]

/-- Comparing with a held node comes to the same from some depth on. -/
theorem unifyWithin_held {depth : Nat} (hb : b.Chained) {j : Nat}
    (hj : b.slot? j = some (.ground m)) (hn : n.Shallow) (hany : n.isAny = false)
    (hdepth : (b.slots.map Slot.size).sum + n.size ≤ depth) :
    unifyWithin (depth + 1) b m n = b.unify m n := by
  have hm := (hb.simple j m hj).ground
  have hsize := size_le_of_slot? hj
  obtain ⟨more, hmore⟩ := Nat.exists_eq_add_of_le (b.le_depthBound m n)
  rcases hn.cases with rfl | ⟨w, rfl⟩ | hsimple
  · cases hany
  · rw [unify, hmore, Nat.add_right_comm]
    rw [unifyWithin_var_right depth b w hm, unifyWithin_var_right _ b w hm]
    apply bindSlotBy_congr
    intro k h hk
    have hheld := (hb.simple k h hk).ground
    rw [unifyWithin_ground depth b h m hheld hm (by omega),
      unifyWithin_ground _ b h m hheld hm (by omega)]
  · rw [unify, hmore, unifyWithin_ground _ b m n hm hsimple.ground (by omega),
      unifyWithin_ground _ b m n hm hsimple.ground (by omega)]

theorem unify_var_left (hb : b.Chained) (v : Var) (hn : n.Shallow) (hany : n.isAny = false) :
    b.unify (.var v) n = b.bindSlot v.index n := by
  obtain ⟨more, hdepth⟩ := Nat.exists_eq_add_of_le (b.le_depthBound (.var v) n)
  rw [unify, hdepth, Nat.add_right_comm, unifyWithin_var_left _ b v hany, bindSlot]
  apply bindSlotBy_congr
  intro j m hj
  exact unifyWithin_held hb hj hn hany (by omega)

theorem unify_var_right (hb : b.Chained) (v : Var) (hm : m.Simple) :
    b.unify m (.var v) = b.bindSlot v.index m := by
  obtain ⟨more, hdepth⟩ := Nat.exists_eq_add_of_le (b.le_depthBound m (.var v))
  rw [unify, hdepth, Nat.add_right_comm, unifyWithin_var_right _ b v hm.ground, bindSlot]
  apply bindSlotBy_congr
  intro j h hj
  exact unifyWithin_held hb hj hm.shallow (Node.isAny_of_ground hm.ground) (by omega)

theorem unify_ground (b : Bindings) (hm : m.isGround = true) (hn : n.isGround = true) :
    b.unify m n = (m == n, b) := by
  rw [unify]
  exact unifyWithin_ground _ b m n hm hn (Nat.le_of_lt (b.size_lt_depthBound m n))

theorem bindSlot_simple_of_false (hb : b.Chained) (i : Nat) (hn : n.Simple)
    (hfalse : (b.bindSlot i n).1 = false) : (b.bindSlot i n).2 = b := by
  refine bindSlotBy_of_false i ?_ hfalse
  intro j m hj _
  rw [unify_ground b (hb.simple j m hj).ground hn.ground]

theorem bindSlot_of_false (hb : b.Chained) (i : Nat) (hn : n.Shallow)
    (hfalse : (b.bindSlot i n).1 = false) : (b.bindSlot i n).2 = b := by
  refine bindSlotBy_of_false i ?_ hfalse
  intro j m hj hrefused
  have hm := hb.simple j m hj
  rcases hn.cases with rfl | ⟨w, rfl⟩ | hsimple
  · rw [unify_any_right]
  · rw [unify_var_right hb w hm] at hrefused ⊢
    exact bindSlot_simple_of_false hb w.index hm hrefused
  · rw [unify_ground b hm.ground hsimple.ground]

/-- Unification that fails on two nodes has bound nothing. -/
theorem unify_of_false (hb : b.Chained) (hm : m.Shallow) (hn : n.Shallow)
    (hfalse : (b.unify m n).1 = false) : (b.unify m n).2 = b := by
  by_cases hany : n.isAny = true
  · rw [Node.eq_any_of_isAny hany, unify_any_right]
  · rw [Bool.not_eq_true] at hany
    rcases hm.cases with rfl | ⟨v, rfl⟩ | hsimple
    · rw [unify_any_left]
    · rw [unify_var_left hb v hn hany] at hfalse ⊢
      exact bindSlot_of_false hb v.index hn hfalse
    · rcases hn.cases with rfl | ⟨w, rfl⟩ | hsimple'
      · cases hany
      · rw [unify_var_right hb w hsimple] at hfalse ⊢
        exact bindSlot_of_false hb w.index hsimple.shallow hfalse
      · rw [unify_ground b hsimple.ground hsimple'.ground]

theorem bindSlot_any {i : Nat} (hb : b.Chained) (hi : i < b.length) :
    b.bindSlot i .any = (true, b) := by
  obtain ⟨links, last, hleads⟩ := hb.ends i hi
  unfold bindSlot bindSlotBy
  rw [hleads.deref_eq]
  cases last with
  | ground m => exact unify_any_right b m
  | unbound j => rfl

/-- Binding a slot is unifying its variable. -/
theorem bindSlot_eq_unify (hb : b.Chained) (v : Var) (hv : v.index < b.length)
    (hn : n.Shallow) : b.bindSlot v.index n = b.unify (.var v) n := by
  cases hany : n.isAny with
  | false => exact (unify_var_left hb v hn hany).symm
  | true =>
      obtain rfl := Node.eq_any_of_isAny hany
      rw [bindSlot_any hb hv, unify_any_right]

end Shallow

end Bindings

/-! ## Requests -/

/-- What an environment can be asked to bind. -/
inductive BindingRequest where
  | bind (target value : Node)
  | bindAt (slot : Nat) (value : Node)
  | unify (pattern fact : Triple)

namespace BindingRequest

/-- The equations of a request, in the order in which they are tried. -/
def equations : BindingRequest → List Equation
  | .bind target value => [(target, value)]
  | .bindAt i value => [(.var ⟨"", i⟩, value)]
  | .unify pattern fact => pattern.nodes.zip fact.nodes

def perform (b : Bindings) : BindingRequest → Except Failure (Bool × Bindings)
  | .bind target value => .ok (b.bind target value)
  | .bindAt i value => b.bind? i value
  | .unify pattern fact => .ok (b.unifyTriple pattern fact)

def performAll (b : Bindings) : List BindingRequest → Except Failure (List Bool × Bindings)
  | [] => .ok ([], b)
  | r :: rest => do
    let (answer, b) ← r.perform b
    let (answers, b) ← performAll b rest
    .ok (answer :: answers, b)

/-- The nodes of the request are shallow and their variables have slots. -/
def Plain (size : Nat) (r : BindingRequest) : Prop := ∀ q ∈ r.equations, q.Plain size

/-- Equations are tried one after the other, up to the first that is inconsistent with
those accepted before. -/
inductive Tries : Bindings → List Equation → List Equation → Bool → Bindings →
    List Equation → Prop where
  | done {b : Bindings} {E : List Equation} : Tries b E [] true b E
  | passes {b b' : Bindings} {E E' rest : List Equation} {q : Equation} {answer : Bool} :
      q.isOpen = true → b.unify q.1 q.2 = (true, b) → Tries b E rest answer b' E' →
        Tries b E (q :: rest) answer b' E'
  | accepts {b b₁ b' : Bindings} {E E' rest : List Equation} {q : Equation} {answer : Bool} :
      q.isOpen = false → Consistent (E ++ [q]) → b.unify q.1 q.2 = (true, b₁) →
        Tries b₁ (E ++ [q]) rest answer b' E' → Tries b E (q :: rest) answer b' E'
  | refuses {b : Bindings} {E rest : List Equation} {q : Equation} :
      q.isOpen = false → ¬ Consistent (E ++ [q]) → b.unify q.1 q.2 = (false, b) →
        Tries b E (q :: rest) false b E

/-- The course of several requests, with the equations that are accepted on it. -/
inductive Course : Bindings → List Equation → List BindingRequest → List Bool → Bindings →
    List Equation → Prop where
  | done {b : Bindings} {E : List Equation} : Course b E [] [] b E
  | next {b b₁ b' : Bindings} {E E₁ E' : List Equation} {r : BindingRequest}
      {rest : List BindingRequest} {answer : Bool} {answers : List Bool} :
      Tries b E r.equations answer b₁ E₁ → Course b₁ E₁ rest answers b' E' →
        Course b E (r :: rest) (answer :: answers) b' E'

end BindingRequest

namespace Bindings.Reflects

variable {b : Bindings} {E : List Equation} {size : Nat}

open BindingRequest

/-- One equation is accepted if and only if it is consistent with those before. -/
theorem unify_equation (h : b.Reflects E) (hlength : b.length = size) {q : Equation}
    (hq : q.Plain size) (hopen : q.isOpen = false) :
    (∃ b₁, b.unify q.1 q.2 = (true, b₁) ∧ Consistent (E ++ [q]) ∧ b₁.Reflects (E ++ [q]) ∧
      b₁.length = size) ∨ (b.unify q.1 q.2 = (false, b) ∧ ¬ Consistent (E ++ [q])) := by
  have hsettles := settles_unify h.chained hq.left hq.right
  have hholds : ∀ σ, q.1.Meets σ q.2 ↔ q.HoldsUnder σ := Equation.meets_iff_of_isOpen hopen
  cases hresult : b.unify q.1 q.2 with
  | mk answer b₁ =>
      rw [hresult] at hsettles
      cases answer with
      | true =>
          have hreflects : b₁.Reflects (E ++ [q]) := by
            refine ⟨hsettles.chained, fun σ => ?_⟩
            rw [hsettles.allows_iff rfl σ, h.allows_iff, hholds, solution_append]
          obtain ⟨σ, hground, hσ⟩ := hsettles.chained.exists_allows
          have hconsistent : Consistent (E ++ [q]) := ⟨σ, hground, (hreflects.allows_iff σ).1 hσ⟩
          exact Or.inl ⟨b₁, rfl, hconsistent, hreflects, hsettles.length_eq.trans hlength⟩
      | false =>
          have hsame : b₁ = b := by
            have hunchanged := unify_of_false h.chained hq.left hq.right (by rw [hresult])
            rwa [hresult] at hunchanged
          refine Or.inr ⟨by rw [hsame], ?_⟩
          rintro ⟨σ, _, hσ⟩
          rw [solution_append] at hσ
          have hslots : ∀ i ∈ q.1.indexes ++ q.2.indexes, i < b.length := by
            rw [hlength]
            exact hq.slots
          exact hsettles.refutes rfl hslots σ ((h.allows_iff σ).2 hσ.1) ((hholds σ).2 hσ.2)

/-- Trying equations in order is what comparing all of them does. -/
theorem tries (h : b.Reflects E) (hlength : b.length = size) (qs : List Equation)
    (hqs : ∀ q ∈ qs, q.Plain size) :
    ∃ answer b' E', compareAll unify b qs = (answer, b') ∧ Tries b E qs answer b' E' ∧
      b'.Reflects E' ∧ b'.length = size := by
  induction qs generalizing b E with
  | nil => exact ⟨true, b, E, rfl, .done, h, hlength⟩
  | cons q qs ih =>
      have hq : q.Plain size := hqs q (by simp)
      have hrest : ∀ p ∈ qs, p.Plain size := fun p hp => hqs p (by simp [hp])
      unfold compareAll
      cases hopen : q.isOpen with
      | true =>
          have hpasses : b.unify q.1 q.2 = (true, b) := unify_of_isOpen b hopen
          obtain ⟨answer, b', E', hrun, htries, hreflects, hlength'⟩ := ih h hlength hrest
          rw [hpasses]
          exact ⟨answer, b', E', hrun, .passes hopen hpasses htries, hreflects, hlength'⟩
      | false =>
          rcases h.unify_equation hlength hq hopen with
            ⟨b₁, haccepts, hconsistent, hreflects, hlength₁⟩ | ⟨hrefuses, hinconsistent⟩
          · obtain ⟨answer, b', E', hrun, htries, hreflects', hlength'⟩ :=
              ih hreflects hlength₁ hrest
            rw [haccepts]
            exact ⟨answer, b', E', hrun, .accepts hopen hconsistent haccepts htries, hreflects',
              hlength'⟩
          · rw [hrefuses]
            exact ⟨false, b, E, rfl, .refuses hopen hinconsistent hrefuses, h, hlength⟩

/-- A request compares its equations in order. -/
theorem perform_eq (h : b.Reflects E) {r : BindingRequest} (hr : r.Plain b.length) :
    r.perform b = .ok (compareAll unify b r.equations) := by
  have hone : ∀ m n : Node, compareAll unify b [(m, n)] = b.unify m n := by
    intro m n
    simp only [compareAll]
    split <;> simp_all
  cases r with
  | bind target value =>
      have hq := hr (target, value) (by simp [equations])
      simp only [perform, equations, hone]
      cases target with
      | var v => exact congrArg Except.ok (bindSlot_eq_unify h.chained v
          (hq.slots v.index (by simp [Node.indexes, Node.vars])) hq.right)
      | _ => rfl
  | bindAt i value =>
      have hq := hr (.var ⟨"", i⟩, value) (by simp [equations])
      have hi : i < b.length := hq.slots i (by simp [Node.indexes, Node.vars])
      simp only [perform, equations, hone, bind?, if_pos hi]
      exact congrArg Except.ok (bindSlot_eq_unify h.chained ⟨"", i⟩ hi hq.right)
  | unify pattern fact => rfl

theorem performAll (h : b.Reflects E) (hlength : b.length = size) (requests : List BindingRequest)
    (hplain : ∀ r ∈ requests, r.Plain size) :
    ∃ answers b' E', performAll b requests = .ok (answers, b') ∧
      Course b E requests answers b' E' ∧ b'.Reflects E' ∧ b'.length = size := by
  induction requests generalizing b E with
  | nil => exact ⟨[], b, E, rfl, .done, h, hlength⟩
  | cons r rest ih =>
      have hr : r.Plain size := hplain r (by simp)
      obtain ⟨answer, b₁, E₁, hrun, htries, hreflects, hlength₁⟩ := h.tries hlength r.equations hr
      obtain ⟨answers, b', E', hrest, hcourse, hreflects', hlength'⟩ :=
        ih hreflects hlength₁ fun s hs => hplain s (by simp [hs])
      refine ⟨answer :: answers, b', E', ?_, .next htries hcourse, hreflects', hlength'⟩
      have hperform : r.perform b = .ok (answer, b₁) := by
        rw [h.perform_eq (by rw [hlength]; exact hr), hrun]
      rw [BindingRequest.performAll, hperform]
      change (BindingRequest.performAll b₁ rest >>= _) = _
      rw [hrest]
      rfl

end Bindings.Reflects

namespace BindingRequest

/-- Requests on nodes without open functors never fail, whatever they are: each of their
equations is accepted if and only if it is consistent with those accepted before, and the
environment is the closure of the accepted ones. -/
theorem performAll_closes (size : Nat) (requests : List BindingRequest)
    (hplain : ∀ r ∈ requests, r.Plain size) :
    ∃ answers b E, performAll (.empty size) requests = .ok (answers, b) ∧
      Course (.empty size) [] requests answers b E ∧ b.length = size ∧ b.ClosureOf E := by
  obtain ⟨answers, b, E, hrun, hcourse, hreflects, hlength⟩ :=
    (Bindings.reflects_empty size).performAll (Bindings.length_empty size) requests hplain
  exact ⟨answers, b, E, hrun, hcourse, hlength, hreflects.closureOf⟩

/-- Two aliases, one of them made by unifying triples, a value at their end, a request that
contradicts it and a triple of which the last position is refused. -/
def chaining : List BindingRequest :=
  [.bind (.var ⟨"x", 0⟩) (.var ⟨"y", 1⟩),
    .unify ⟨.var ⟨"y", 1⟩, .any, .var ⟨"w", 3⟩⟩ ⟨.var ⟨"z", 2⟩, .uri "p", .var ⟨"w", 3⟩⟩,
    .bindAt 2 (.uri "a"),
    .bind (.var ⟨"x", 0⟩) (.uri "b"),
    .unify ⟨.var ⟨"w", 3⟩, .uri "p", .var ⟨"y", 1⟩⟩ ⟨.var ⟨"v", 4⟩, .uri "p", .uri "c"⟩]

theorem performAll_closes_chaining :
    (∀ r ∈ chaining, r.Plain 5) ∧
      ∃ b E, performAll (.empty 5) chaining = .ok ([true, true, true, false, false], b) ∧
        Course (.empty 5) [] chaining [true, true, true, false, false] b E ∧ b.ClosureOf E ∧
        b.values = [some (.uri "a"), some (.uri "a"), some (.uri "a"), none, none] := by
  have hplain : ∀ r ∈ chaining, r.Plain 5 := by
    have hflat : ∀ r ∈ chaining, ∀ q ∈ r.equations, q.1.isFunctor = false ∧
        q.2.isFunctor = false ∧ ∀ i ∈ q.1.indexes ++ q.2.indexes, i < 5 := by decide
    intro r hr q hq
    obtain ⟨hleft, hright, hslots⟩ := hflat r hr q hq
    exact Equation.plain_of_flat hleft hright hslots
  obtain ⟨answers, b, E, hrun, hcourse, -, hcloses⟩ := performAll_closes 5 chaining hplain
  have hanswers : (performAll (.empty 5) chaining).map (fun r => (r.1, r.2.values)) =
      .ok ([true, true, true, false, false],
        [some (.uri "a"), some (.uri "a"), some (.uri "a"), none, none]) := by rfl
  rw [hrun] at hanswers
  obtain ⟨rfl, hvalues⟩ := Prod.mk.inj (Except.ok.inj hanswers)
  exact ⟨hplain, b, E, hrun, hcourse, hcloses, hvalues⟩

end BindingRequest

end Entailment
