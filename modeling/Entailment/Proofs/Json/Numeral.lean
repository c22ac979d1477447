import Entailment.Json.Numeral
import Entailment.Proofs.Json.Text

/-!
# Numbers in documents

The literals of whole numbers and of finite doubles are well formed, and a whole number of
64 bits is read from its literal.  What a double is read back as is a matter of rounding.
-/

namespace Entailment

namespace Json

open Reader

/-! ## Literals -/

theorem digits_toDigits (n : Nat) : Digits (Nat.toDigits 10 n) :=
  ⟨Nat.toDigits_ne_nil, fun _ hc => Nat.isDigit_of_mem_toDigits (by decide) (by decide) hc⟩

theorem digits_zero : Digits ['0'] := digits_toDigits 0

/-- The digits of a number other than zero do not begin with one. -/
theorem head?_toDigits {n : Nat} (h : (Nat.toDigits 10 n).head? = some '0') : n = 0 := by
  induction n using Nat.strongRecOn with
  | ind n ih =>
      by_cases hlt : n < 10
      · rw [Nat.toDigits_of_lt_base hlt, List.head?_cons, Option.some.injEq,
          Nat.digitChar_eq_zero] at h
        exact h
      · have hprefix : (Nat.toDigits 10 (n / 10)).head? = some '0' := by
          rw [Nat.toDigits_of_base_le (by decide) (Nat.le_of_not_lt hlt),
            List.head?_append_of_ne_nil _ Nat.toDigits_ne_nil] at h
          exact h
        have hzero := ih (n / 10) (by omega) hprefix
        omega

theorem wholeZero_toDigits (n : Nat) (h : (Nat.toDigits 10 n).head? = some '0') :
    (Nat.toDigits 10 n).length = 1 := by
  rw [head?_toDigits h]
  rfl

/-- The sign of a number that is negative. -/
def minus (isNegative : Bool) : List Char := if isNegative then ['-'] else []

theorem minus_cases (isNegative : Bool) : minus isNegative = [] ∨ minus isNegative = ['-'] := by
  cases isNegative with
  | true => exact .inr rfl
  | false => exact .inl rfl

theorem toList_toString_int (n : Int) :
    (toString n).toList = minus (decide (n < 0)) ++ Nat.toDigits 10 n.natAbs := by
  rw [Int.toString_eq_repr, Int.repr_eq_if]
  by_cases h : n < 0
  · rw [if_neg (Int.not_le.2 h), String.toList_append, Nat.toList_repr, decide_eq_true h]
    rw [show (-n).toNat = n.natAbs by omega]
    rfl
  · rw [if_pos (Int.not_lt.1 h), Nat.toList_repr, decide_eq_false h]
    rw [show n.toNat = n.natAbs by omega]
    rfl

theorem spelled_whole (isNegative : Bool) (n : Nat) :
    Spelled (minus isNegative ++ Nat.toDigits 10 n) := by
  have hspelled := Spelled.mk (minus_cases isNegative) (digits_toDigits n) (wholeZero_toDigits n)
    (.inl rfl) (.inl rfl)
  rwa [List.append_nil, List.append_nil] at hspelled

theorem tidy_ofNat (n : Nat) : (ofNat n).Tidy := by
  refine .number ?_
  rw [Nat.toString_eq_repr, Nat.toList_repr]
  exact spelled_whole false n

theorem tidy_ofInt (n : Int) : (ofInt n).Tidy := by
  refine .number ?_
  rw [toList_toString_int]
  exact spelled_whole _ _

theorem digits_zeros_append (k : Nat) {ds : List Char} (h : Digits ds) :
    Digits ((FloatLayout.zeros k).toList ++ ds) := by
  obtain ⟨hne, hall⟩ := h
  refine ⟨List.append_ne_nil_of_right_ne_nil _ hne, fun c hc => ?_⟩
  rcases List.mem_append.1 hc with hc | hc
  · rw [FloatLayout.zeros, String.toList_ofList] at hc
    rw [List.eq_of_mem_replicate hc]
    rfl
  · exact hall c hc

/-- Digits without an exponent, which do not begin with a zero. -/
theorem spelled_positional (isNegative : Bool) {digits : List Char} (h : Digits digits)
    (hlead : digits.head? ≠ some '0') (point : Int) :
    Spelled (minus isNegative ++ (FloatLayout.document.renderPositional digits point).toList) := by
  have hsign := minus_cases isNegative
  unfold FloatLayout.renderPositional
  split
  · have hfraction := digits_zeros_append (-point).toNat h
    have hspelled :=
      Spelled.mk hsign digits_zero (fun _ => rfl) (.inr ⟨_, rfl, hfraction⟩) (.inl rfl)
    simpa using hspelled
  · rename_i hpoint
    have hhead : ∀ ds, (digits ++ ds).head? ≠ some '0' := by
      intro ds
      rwa [List.head?_append_of_ne_nil _ h.1]
    by_cases hlength : digits.length ≤ point.toNat
    · have hwhole :
          Digits (digits ++ (FloatLayout.zeros (point.toNat - digits.length)).toList) := by
        refine ⟨List.append_ne_nil_of_left_ne_nil h.1 _, fun c hc => ?_⟩
        rcases List.mem_append.1 hc with hc | hc
        · exact h.2 c hc
        · rw [FloatLayout.zeros, String.toList_ofList] at hc
          rw [List.eq_of_mem_replicate hc]
          rfl
      have hspelled := Spelled.mk hsign hwhole (fun hz => absurd hz (hhead _))
        (.inr ⟨['0'], rfl, digits_zero⟩) (.inl rfl)
      simpa [hlength, FloatLayout.document] using hspelled
    · have htake : Digits (digits.take point.toNat) := by
        refine ⟨fun hnil => ?_, fun c hc => h.2 c (List.mem_of_mem_take hc)⟩
        rw [List.take_eq_nil_iff] at hnil
        rcases hnil with hnil | hnil
        · omega
        · exact h.1 hnil
      have hdrop : Digits (digits.drop point.toNat) :=
        ⟨fun hnil => hlength (List.drop_eq_nil_iff.1 hnil),
          fun c hc => h.2 c (List.mem_of_mem_drop hc)⟩
      have hwhole : (digits.take point.toNat).head? ≠ some '0' := by
        rw [List.head?_take]
        split
        · exact nofun
        · exact hlead
      have hspelled := Spelled.mk hsign htake (fun hz => absurd hz hwhole)
        (.inr ⟨_, rfl, hdrop⟩) (.inl rfl)
      simpa [hlength] using hspelled

theorem spelled_exponent (isNegative : Bool) {digits : List Char} (h : Digits digits) (lead : Int) :
    Spelled (minus isNegative ++ (FloatLayout.document.renderExponent digits lead).toList) := by
  have hsign := minus_cases isNegative
  have hexponent : ∃ s ds,
      'e' :: ((if lead < 0 then ['-'] else ['+']) ++ Nat.toDigits 10 lead.natAbs) =
        'e' :: (s ++ ds) ∧ (s = [] ∨ s = ['+'] ∨ s = ['-']) ∧ Digits ds := by
    refine ⟨_, _, rfl, ?_, digits_toDigits _⟩
    split
    · exact .inr (.inr rfl)
    · exact .inr (.inl rfl)
  have hmarked : ('e' :: ((if lead < 0 then ['-'] else ['+']) ++ Nat.toDigits 10 lead.natAbs)) =
      "e".toList ++ ((if lead < 0 then "-" else "+").toList ++ (toString lead.natAbs).toList) := by
    rw [Nat.toString_eq_repr, Nat.toList_repr]
    split <;> rfl
  rw [hmarked] at hexponent
  unfold FloatLayout.renderExponent
  match digits with
  | [] => exact absurd rfl h.1
  | [d] =>
      have hspelled := Spelled.mk hsign h (fun _ => rfl) (.inl rfl) (.inr hexponent)
      simpa [FloatLayout.document] using hspelled
  | d :: e :: ds =>
      have hwhole : Digits [d] := ⟨by simp, by simpa using h.2 d List.mem_cons_self⟩
      have hfraction : Digits (e :: ds) :=
        ⟨by simp, fun c hc => h.2 c (List.mem_cons_of_mem d hc)⟩
      have hspelled := Spelled.mk hsign hwhole (fun _ => rfl) (.inr ⟨_, rfl, hfraction⟩)
        (.inr hexponent)
      simpa [FloatLayout.document] using hspelled

theorem spelled_decimal (isNegative : Bool) (d : Decimal) :
    Spelled (minus isNegative ++ (FloatLayout.document.renderDecimal d).toList) := by
  unfold FloatLayout.renderDecimal
  split
  · have hspelled := Spelled.mk (minus_cases isNegative) digits_zero (fun _ => rfl)
      (.inr ⟨_, rfl, digits_zero⟩) (.inl rfl)
    simpa [FloatLayout.document] using hspelled
  · rename_i hdigits
    have hlead : (Nat.toDigits 10 d.digits).head? ≠ some '0' := fun h => hdigits (head?_toDigits h)
    dsimp only
    split
    · exact spelled_positional isNegative (digits_toDigits _) hlead _
    · exact spelled_exponent isNegative (digits_toDigits _) _

theorem tidy_ofDouble (d : Double) : (ofDouble d).Tidy := by
  unfold ofDouble
  split
  · exact .null
  · rename_i hfinite
    simp only [Bool.or_eq_true, not_or, Bool.not_eq_true] at hfinite
    refine .number ?_
    have hspelled := spelled_decimal d.isNegative d.shortest
    rw [FloatLayout.render, hfinite.1, hfinite.2]
    simp only [Bool.false_eq_true, if_false, String.toList_append]
    cases hsign : d.isNegative with
    | true => rwa [hsign] at hspelled
    | false => rwa [hsign] at hspelled

/-! ## Values of whole numbers -/

theorem natOfDigits_toDigits (n : Nat) : Reading.natOfDigits (Nat.toDigits 10 n) = n :=
  Nat.ofDigitChars_ten_toDigits

theorem sign_whole (isNegative : Bool) (n : Nat) :
    Reading.sign (minus isNegative ++ Nat.toDigits 10 n) = (isNegative, Nat.toDigits 10 n) := by
  cases isNegative with
  | true => rfl
  | false =>
      obtain ⟨d, tail, hdigits, hd⟩ := (digits_toDigits n).head_isDigit
      rw [hdigits]
      change Reading.sign (d :: tail) = (false, d :: tail)
      unfold Reading.sign
      split
      · rename_i heq
        cases heq
        cases hd
      · rename_i heq
        cases heq
        cases hd
      · rfl

/-- A literal without a fraction and an exponent. -/
theorem ofLiteral?_whole {literal : String} {isNegative : Bool} {n : Nat}
    (h : literal.toList = minus isNegative ++ Nat.toDigits 10 n) :
    Numeral.ofLiteral? literal =
      if n < Numeral.wordLimit then
        if !isNegative then some (.natural n)
        else if n = 0 ∨ Nat.pow 2 63 < n then
          some (.real (Double.neg (Double.ofFloat (UInt64.ofNat n).toFloat)))
        else some (.negative (-(n : Int)))
      else (Numeral.realMagnitude (Nat.toDigits 10 n) [] []).map fun d =>
        .real (Double.withSign isNegative d) := by
  have hdigits : Reading.digits (Nat.toDigits 10 n) = (Nat.toDigits 10 n, []) := by
    have hsplit : Reading.digits (Nat.toDigits 10 n ++ []) = (Nat.toDigits 10 n, []) :=
      digits_append (digits_toDigits n).2 (fun c hc => nomatch hc)
    rwa [List.append_nil] at hsplit
  simp only [Numeral.ofLiteral?, h, sign_whole, hdigits, natOfDigits_toDigits, List.isEmpty_nil,
    Bool.true_and, decide_eq_true_eq]

theorem nat?_ofNat (n : Nat) :
    (ofNat n).nat? = if n < Numeral.wordLimit then some n else none := by
  have hliteral : (toString n).toList = minus false ++ Nat.toDigits 10 n := Nat.toList_repr
  rw [nat?, ofNat, numeral?, ofLiteral?_whole hliteral]
  by_cases hword : n < Numeral.wordLimit
  · rw [if_pos hword, if_pos hword]
    rfl
  · rw [if_neg hword, if_neg hword]
    cases Numeral.realMagnitude (Nat.toDigits 10 n) [] [] <;> rfl

theorem int64?_ofInt (n : Int64) : (ofInt n.toInt).int64? = some n := by
  have hmin := n.le_toInt
  have hmax := n.toInt_lt
  have hword : n.toInt.natAbs < Numeral.wordLimit := by
    rw [Numeral.wordLimit, Nat.pow_eq]
    omega
  have hchecked : Int64.checked n.toInt = some n := Int64.checked_eq_some_iff.2 rfl
  rw [int64?, ofInt, numeral?, ofLiteral?_whole (toList_toString_int n.toInt), if_pos hword]
  by_cases hneg : n.toInt < 0
  · have hfits : ¬ (n.toInt.natAbs = 0 ∨ Nat.pow 2 63 < n.toInt.natAbs) := by
      rw [Nat.pow_eq]
      omega
    have habs : -(n.toInt.natAbs : Int) = n.toInt := by omega
    rw [decide_eq_true hneg, Bool.not_true, if_neg Bool.false_ne_true, if_neg hfits]
    simp only [habs, hchecked]
  · have habs : (n.toInt.natAbs : Int) = n.toInt := by omega
    rw [decide_eq_false hneg]
    simp only [Bool.not_false, if_true, habs, hchecked]

end Json

end Entailment
