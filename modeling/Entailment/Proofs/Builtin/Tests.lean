import Entailment.Builtin.Standard
import Entailment.Proofs.Builtin.Independence

/-!
# Tests that are blind to variables

A comparison or a test of a kind takes a variable that has no value for nothing but a
node without a value, whatever it is called.  So a call to it has the same answer under
any numbering of the variables that it is left with.
-/

namespace Entailment

/-- The nodes are equal, or both are variables. -/
def Node.LikeKnown (m n : Node) : Prop :=
  (m == n) = true ∨ m.isVariable = true ∧ n.isVariable = true

namespace Builtin

/-- The builtin tests its arguments, and does not tell variables apart. -/
def IsBlindTest (b : Builtin) : Prop :=
  ∃ name arity test, b = .ofTest name arity test ∧
    ∀ as bs, List.Forall₂ Node.LikeKnown as bs → test as = test bs

end Builtin

namespace Node

variable {m n : Node}

/-- What is the same for equal nodes and for all variables. -/
theorem LikeKnown.apply_eq {α : Type} (h : m.LikeKnown n) {f : Node → α}
    (hcongr : (m == n) = true → f m = f n) (hvar : ∀ v w, f (.var v) = f (.var w)) :
    f m = f n := by
  rcases h with hsame | ⟨hm, hn⟩
  · exact hcongr hsame
  · cases m with
    | var v =>
        cases n with
        | var w => exact hvar v w
        | _ => cases hn
    | _ => cases hm

theorem LikeKnown.isGround_eq (h : m.LikeKnown n) : m.isGround = n.isGround :=
  h.apply_eq isGround_congr fun _ _ => rfl

theorem LikeKnown.isLiteral_eq (h : m.LikeKnown n) : m.isLiteral = n.isLiteral :=
  h.apply_eq isLiteral_congr fun _ _ => rfl

theorem LikeKnown.isBlank_eq (h : m.LikeKnown n) : m.isBlank = n.isBlank :=
  h.apply_eq isBlank_congr fun _ _ => rfl

theorem LikeKnown.isFunctor_eq (h : m.LikeKnown n) : m.isFunctor = n.isFunctor :=
  h.apply_eq isFunctor_congr fun _ _ => rfl

theorem LikeKnown.beq (h : m.LikeKnown n) (hm : m.isGround = true) : (m == n) = true := by
  refine h.resolve_right fun hvar => ?_
  cases m with
  | var v => cases hm
  | _ => cases hvar.1

end Node

namespace Builtin

theorem isBlindTest_comparison (name : String) {test : Node → Node → Bool}
    (htest : ∀ m m' n n', (m == m') = true → (n == n') = true → test m n = test m' n') :
    (comparison name test).IsBlindTest := by
  refine ⟨name, 2, _, rfl, fun as bs hall => ?_⟩
  match as, bs, hall with
  | [], [], _ => rfl
  | [_], [_], _ => rfl
  | [m, n], [m', n'], .cons hm (.cons hn .nil) =>
      change (m.isGround && n.isGround && test m n) = (m'.isGround && n'.isGround && test m' n')
      rw [← hm.isGround_eq, ← hn.isGround_eq]
      cases hground : m.isGround && n.isGround with
      | false => rfl
      | true =>
          rw [Bool.and_eq_true] at hground
          rw [htest m m' n n' (hm.beq hground.1) (hn.beq hground.2)]
  | _ :: _ :: _ :: _, _ :: _ :: _ :: _, _ => rfl

theorem isBlindTest_kindTest (name : String) {test : Node → Bool}
    (htest : ∀ m n, m.LikeKnown n → test m = test n) : (kindTest name test).IsBlindTest := by
  refine ⟨name, 1, _, rfl, fun as bs hall => ?_⟩
  match as, bs, hall with
  | [], [], _ => rfl
  | m :: _, n :: _, .cons hm _ => exact htest m n hm

theorem isBlindTest_datatypeTest : datatypeTest.IsBlindTest := by
  refine ⟨"isDType", 2, _, rfl, fun as bs hall => ?_⟩
  have hsame : ∀ (ctx : CallContext) (st : CallState),
      datatypeTest.body ctx as st = datatypeTest.body ctx bs st := by
    intro ctx st
    have hlength := hall.length_eq
    by_cases htwo : as.length = 2
    · match as, bs, hall, htwo with
      | [m, n], [m', n'], .cons hm (.cons hn .nil), _ =>
          have hdatatype : m.datatype? = m'.datatype? :=
            hm.apply_eq Node.datatype?_congr fun _ _ => rfl
          have huri : n.uri? = n'.uri? := hn.apply_eq Node.uri?_congr fun _ _ => rfl
          rw [datatypeTest_body, datatypeTest_body, hdatatype, huri]
    · rw [datatypeTest_body_of_length _ htwo, datatypeTest_body_of_length _ (hlength ▸ htwo)]
  exact congrArg Prod.fst (hsame ⟨fun _ => [], fun _ => false, [], "", false, false⟩ default)

theorem isBlindTest_of_mem {b : Builtin} (hb : b ∈ comparisons ++ kindTests) : b.IsBlindTest := by
  simp only [comparisons, kindTests, List.mem_append, List.mem_cons, List.not_mem_nil, or_false] at hb
  have hordering : ∀ name accept, (ordering name accept).IsBlindTest := fun name accept =>
    isBlindTest_comparison name fun _ _ _ _ hm hn => by rw [Node.compareValues?_congr hm hn]
  rcases hb with (rfl | rfl | rfl | rfl | rfl | rfl) | rfl | rfl | rfl | rfl | rfl | rfl | rfl |
    rfl | rfl
  · exact isBlindTest_comparison _ fun _ _ _ _ hm hn => Node.sameValue_congr hm hn
  · exact isBlindTest_comparison _ fun _ _ _ _ hm hn => by rw [Node.sameValue_congr hm hn]
  · exact hordering _ _
  · exact hordering _ _
  · exact hordering _ _
  · exact hordering _ _
  · exact isBlindTest_kindTest _ fun _ _ h => h.isGround_eq
  · exact isBlindTest_kindTest _ fun _ _ h => by rw [h.isGround_eq]
  · exact isBlindTest_kindTest _ fun _ _ h => h.isLiteral_eq
  · exact isBlindTest_kindTest _ fun _ _ h => by rw [h.isGround_eq, h.isLiteral_eq]
  · exact isBlindTest_kindTest _ fun _ _ h => h.isBlank_eq
  · exact isBlindTest_kindTest _ fun _ _ h => by rw [h.isGround_eq, h.isBlank_eq]
  · exact isBlindTest_kindTest _ fun _ _ h => h.isFunctor_eq
  · exact isBlindTest_kindTest _ fun _ _ h => by rw [h.isGround_eq, h.isFunctor_eq]
  · exact isBlindTest_datatypeTest

end Builtin

end Entailment
