import Entailment.Proofs.Forward.Lifetime
import Entailment.Proofs.Forward.Reliability
import Entailment.Proofs.Forward.Tally

/-!
# Who supports what

The support of a conclusion is kept beside the deductions, and beside the firings that
draw it.  No conclusion is deduced without a supporter or a commitment, and none is listed
without a supporter: this much every piece of work keeps, whatever the rules do.
-/

namespace Entailment

namespace Engine

variable {γ : Type} {e e' : Engine γ} {t : Triple}

/-- What is deduced is held up or committed, and nothing is listed that is not held up. -/
structure Attributed (e : Engine γ) : Prop where
  sound : e.deductions.Sound
  held : ∀ t, e.deductions.contains t = true →
    e.supporters t ≠ [] ∨ e.committed.contains t = true
  listed : ∀ t firings, e.support.get? t = some firings → firings.members ≠ []

namespace Attributed

theorem of_eq (he : e.Attributed) (hsupport : e'.support = e.support)
    (hcommitted : e'.committed = e.committed) (hdeductions : e'.deductions = e.deductions) :
    e'.Attributed := by
  refine ⟨hdeductions ▸ he.sound, fun t ht => ?_, fun t firings ht => ?_⟩
  · rw [supporters, hsupport, hcommitted]
    exact he.held t (hdeductions ▸ ht)
  · exact he.listed t firings (hsupport ▸ ht)

theorem of_empty (hsupport : e.support = .empty) (hdeductions : e.deductions = .empty) :
    e.Attributed := by
  refine ⟨hdeductions ▸ MemoryGraph.sound_empty, fun t ht => ?_, fun t firings ht => ?_⟩
  · rw [hdeductions, MemoryGraph.contains_empty] at ht
    cases ht
  · rw [hsupport] at ht
    cases ht

/-- A conclusion is listed exactly if it is held up. -/
theorem contains_support_iff (he : e.Attributed) (t : Triple) :
    e.support.contains t = true ↔ e.supporters t ≠ [] := by
  rw [OrderedMap.contains_eq_isSome_get?, supporters]
  cases h : e.support.get? t with
  | none => exact iff_of_false Bool.false_ne_true fun hne => hne rfl
  | some firings => exact iff_of_true rfl (he.listed t firings h)

/-- A deduction that goes need not be held up any more, nor be committed. -/
theorem minus (hsound : e.deductions.Sound)
    (hheld : ∀ u, (t == u) = false → e.deductions.contains u = true →
      e.supporters u ≠ [] ∨ e.committed.contains u = true)
    (hlisted : ∀ u firings, e.support.get? u = some firings → firings.members ≠ []) :
    ({ e with deductions := e.deductions.minus t } : Engine γ).Attributed := by
  refine ⟨hsound.minus t, fun u hu => ?_, hlisted⟩
  change (e.deductions.minus t).contains u = true at hu
  rw [hsound.contains_minus, Bool.and_eq_true, Bool.not_eq_true'] at hu
  exact hheld u hu.2 hu.1

theorem uncommit (he : e.Attributed) (t : Triple) :
    ({ e with
      deductions := e.deductions.minus t
      committed := e.committed.erase t } : Engine γ).Attributed := by
  refine minus (e := { e with committed := e.committed.erase t }) he.sound ?_ he.listed
  intro u hdifferent hu
  refine (he.held u hu).imp_right fun hcommitted => ?_
  change (e.committed.erase t).contains u = true
  rw [OrderedSet.contains_erase, hcommitted, hdifferent]
  rfl

/-- A conclusion that is committed or held up from now on. -/
theorem commit (he : e.Attributed) (derivations : DerivationLog) (t : Triple) :
    ({ e with derivations, committed := e.committed.insert t } : Engine γ).Attributed := by
  refine ⟨he.sound, fun u hu => (he.held u hu).imp_right fun hcommitted => ?_, he.listed⟩
  change (e.committed.insert t).contains u = true
  rw [OrderedSet.contains_insert, hcommitted, Bool.true_or]

theorem supported (he : e.Attributed) (derivations : DerivationLog) (a : Activation) (t : Triple) :
    ({ e with derivations, support := e.support.alter t (·.insert a) } : Engine γ).Attributed := by
  have hmembers : ∀ firings : OrderedSet Activation, (firings.insert a).members ≠ [] := by
    intro firings hnone
    have ha := firings.contains_insert a a
    rw [OrderedSet.contains_of_isEmpty (OrderedSet.isEmpty_iff.2 hnone), BEq.rfl,
      Bool.or_true] at ha
    cases ha
  refine ⟨he.sound, fun u hu => (he.held u hu).imp_left fun hheld => ?_, fun u firings hu => ?_⟩
  · obtain ⟨b, hb⟩ := List.exists_mem_of_ne_nil _ hheld
    exact List.ne_nil_of_mem ((e.supporters_alter t u a b).2 (Or.inl hb))
  · change (e.support.alter t (·.insert a)).get? u = some firings at hu
    rw [OrderedMap.get?_alter] at hu
    split at hu
    · exact Option.some.inj hu ▸ hmembers _
    · exact he.listed u firings hu

/-- What is held up or committed may be deduced. -/
theorem plus (he : e.Attributed) (ht : t.isGround = true)
    (hheld : e.supporters t ≠ [] ∨ e.committed.contains t = true) :
    ({ e with deductions := e.deductions.plus t } : Engine γ).Attributed := by
  refine ⟨he.sound.plus ht, fun u hu => ?_, he.listed⟩
  change (e.deductions.plus t).contains u = true at hu
  rw [he.sound.contains_plus ht, Bool.or_eq_true] at hu
  rcases hu with hu | hsame
  · exact he.held u hu
  · change e.supporters u ≠ [] ∨ e.committed.contains u = true
    rw [← e.supporters_congr hsame, ← e.committed.contains_congr hsame]
    exact hheld

end Attributed

end Engine

/-! ## What work does to support -/

namespace Work

open Engine

variable {γ : Type} {e : Engine γ} {t : Triple}

theorem leaves_retractDeduction (hsound : e.deductions.Sound) :
    (retractDeduction t).Leaves e fun _ e' =>
      e' = { e with deductions := e.deductions.minus t } := by
  refine leaves_get_bind ?_
  rw [hsound.delete_eq]
  intro removed e' h
  cases h
  rfl

variable [Graph γ]

theorem leaves_withdraw (hsound : e.deductions.Sound)
    (h : ({ e with deductions := e.deductions.minus t } : Engine γ).Attributed) :
    (withdraw t).Leaves e fun _ e' => e'.Attributed := by
  refine (leaves_retractDeduction hsound).bind fun removed e₁ he₁ => ?_
  subst he₁
  refine (keeps_ite (keeps_bind (keeps_inBase t) fun _ => keeps_ite (keeps_pure _) ?_)
    (keeps_pure _)).leaves h
  exact keeps_modify fun _ he => he.of_eq rfl rfl rfl

theorem leaves_leaveSupport {e₁ : Engine γ} (he : e₁.Attributed)
    (hcommitted : e₁.committed = e.committed) (firings : OrderedSet Activation) :
    (leaveSupport e t firings).Leaves e₁ fun _ e' => e'.Attributed := by
  unfold leaveSupport
  split
  · have hlisted : ∀ u left, (e₁.support.erase t).get? u = some left → left.members ≠ [] := by
      intro u left hu
      rw [OrderedMap.get?_erase] at hu
      split at hu
      · cases hu
      · exact he.listed u left hu
    have hheld : ∀ u, (t == u) = false → e₁.deductions.contains u = true →
        supporters { e₁ with support := e₁.support.erase t } u ≠ [] ∨
          e₁.committed.contains u = true := by
      intro u hdifferent hu
      rw [supporters_erase, hdifferent]
      exact he.held u hu
    refine leaves_modify_bind ?_
    split
    · -- What is committed stays, though nothing holds it up any more.
      rename_i hkept
      rw [← hcommitted] at hkept
      refine leaves_pure ⟨he.sound, fun u hu => ?_, hlisted⟩
      cases hsame : t == u with
      | false => exact hheld u hsame hu
      | true => exact Or.inr ((e₁.committed.contains_congr hsame).symm.trans hkept)
    · exact leaves_withdraw he.sound (Attributed.minus he.sound hheld hlisted)
  · rename_i hsome
    have hmembers : firings.members ≠ [] := fun h => hsome (OrderedSet.isEmpty_iff.2 h)
    refine leaves_modify_bind (leaves_modify ⟨he.sound, fun u hu => ?_, fun u left hu => ?_⟩)
    · change supporters { e₁ with support := e₁.support.insert t firings } u ≠ [] ∨ _
      rw [supporters_insert]
      split
      · exact Or.inl hmembers
      · exact he.held u hu
    · change (e₁.support.insert t firings).get? u = some left at hu
      rw [OrderedMap.get?_insert] at hu
      split at hu
      · exact Option.some.inj hu ▸ hmembers
      · exact he.listed u left hu

theorem keeps_unsupport_attributed (a : Activation) (c : CompiledRule)
    (matched : List (Option Triple)) (t : Triple) :
    Keeps Attributed (unsupport a c matched t : Work γ Unit) := by
  rw [unsupport_eq]
  refine keeps_of_leaves fun e he => leaves_get_bind ?_
  have hleft : ∀ (derivations : DerivationLog) (firings : OrderedSet Activation),
      (leaveSupport e t firings).Leaves { e with derivations } fun _ e' => e'.Attributed :=
    fun derivations firings =>
      have he₁ : Attributed ({ e with derivations } : Engine γ) := he.of_eq rfl rfl rfl
      leaves_leaveSupport he₁ rfl firings
  split
  · exact leaves_throw
  · rename_i firings _
    cases firings.contains a with
    | false => exact Leaves.bind leaves_throw fun _ _ h => h
    | true =>
        simp only [Bool.not_true, Bool.false_eq_true, if_false]
        split
        · exact leaves_set_bind (hleft _ _)
        · exact hleft e.derivations _

omit [Graph γ] in
/-- To credit a conclusion commits it or holds it up. -/
theorem leaves_credit (he : e.Attributed) (a : Activation) (c : CompiledRule)
    (matched : List (Option Triple)) (t : Triple) :
    (credit a c matched t).Leaves e fun _ e' =>
      e'.Attributed ∧ (e'.supporters t ≠ [] ∨ e'.committed.contains t = true) := by
  have hcommitted : (e.committed.insert t).contains t = true := by
    rw [OrderedSet.contains_insert, BEq.rfl, Bool.or_true]
  have hsupported : supporters { e with support := e.support.alter t (·.insert a) } t ≠ [] :=
    List.ne_nil_of_mem ((e.supporters_alter t t a a).2 (Or.inr ⟨rfl, BEq.rfl⟩))
  refine leaves_modify ?_
  simp only
  split <;> split
  · exact ⟨he.commit _ t, Or.inr hcommitted⟩
  · exact ⟨he.commit e.derivations t, Or.inr hcommitted⟩
  · exact ⟨he.supported _ a t, Or.inl hsupported⟩
  · exact ⟨he.supported e.derivations a t, Or.inl hsupported⟩

/-- A conclusion that is committed or held up may be asserted. -/
theorem leaves_assert (he : e.Attributed)
    (hheld : e.supporters t ≠ [] ∨ e.committed.contains t = true) :
    (assert t).Leaves e fun _ e' => e'.Attributed := by
  have hadded : (access (e.deductions.add t) : Work γ (Bool × MemoryGraph)).Leaves e
      fun answer e' => e' = e ∧ e.deductions.add t = .ok answer :=
    leaves_access fun _ hadd => ⟨rfl, hadd⟩
  refine leaves_get_bind (hadded.bind fun answer e₁ h => ?_)
  obtain ⟨rfl, hadd⟩ := h
  have hplus := he.plus (MemoryGraph.isGround_of_add hadd) hheld
  rw [MemoryGraph.plus, hadd] at hplus
  refine leaves_set_bind ((keeps_ite (keeps_bind (keeps_inBase t) fun _ =>
    keeps_ite (keeps_pure _) ?_) (keeps_pure _)).leaves hplus)
  exact keeps_modify fun _ he => he.of_eq rfl rfl rfl

theorem enduring_attributed : Enduring (fun _ => True) (Attributed : Engine γ → Prop) where
  kinds _ _ _ := trivial
  ofConclusions he _ hdeductions hsupport hcommitted := he.of_eq hsupport hcommitted hdeductions
  retracted t he := (leaves_retractDeduction he.sound).mono fun _ _ h =>
    h ▸ ⟨.minus he.sound (fun u _ hu => he.held u hu) he.listed, he.uncommit t⟩
  unsupport := keeps_unsupport_attributed
  draw a c matched t _ := keeps_of_leaves fun _ he =>
    (leaves_credit he a c matched t).bind fun _ _ h => leaves_assert h.1 h.2

end Work

namespace Engine

variable {γ : Type} [Graph γ] {n : Network} {sane : γ → Prop} {allowed : Operation → Prop}
  {e : Engine γ}

/-- Whatever has been done, what is deduced is held up or committed. -/
theorem Operated.attributed (h : Operated n sane allowed e) : e.Attributed :=
  (h.endures Work.enduring_attributed (fun _ => .of_empty rfl rfl) fun _ _ =>
    .of_empty rfl rfl).elim id fun hsilent => .of_empty hsilent.support_eq hsilent.deductions_eq

end Engine

end Entailment
