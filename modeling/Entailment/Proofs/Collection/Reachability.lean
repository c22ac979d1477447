import Entailment.Collection.Descent
import Mathlib.Data.List.Basic

/-!
# What a descent reaches

`descend` lists the least set that holds the pending members of the domain and, with
a member, all that follows it inside the domain.
-/

namespace Entailment

/-- The descent with no bound, which ends since each member leaves the domain. -/
def descendFrom {α : Type} [DecidableEq α] (next : α → List α) :
    List α → List α → List α
  | _, [] => []
  | domain, a :: pending =>
    if a ∈ domain then a :: descendFrom next (domain.erase a) ((next a).reverse ++ pending)
    else descendFrom next domain pending
termination_by domain pending => (domain.length, pending.length)
decreasing_by
  · have smaller := List.length_erase_of_mem ‹a ∈ domain›
    have positive := List.length_pos_of_mem ‹a ∈ domain›
    exact Prod.Lex.left _ _ (by omega)
  · exact Prod.Lex.right _ (by simp)

variable {α : Type} [DecidableEq α] {next : α → List α} {domain pending : List α}

/-- The size of the domain is bound enough. -/
theorem descendWithin_length_eq :
    descendWithin next domain.length domain pending = descendFrom next domain pending := by
  fun_induction descendFrom next domain pending with
  | case1 domain => cases domain <;> rfl
  | case2 domain a pending ha ih =>
      have smaller := List.length_erase_of_mem ha
      have positive := List.length_pos_of_mem ha
      have hlength : domain.length = (domain.erase a).length + 1 := by omega
      simp only [hlength, descendWithin, List.dropWhile, ha, not_true_eq_false, decide_false]
      rw [ih]
  | case3 domain a pending ha ih =>
      rw [← ih]
      cases domain.length with
      | zero => rfl
      | succ bound => simp [descendWithin, List.dropWhile, ha]

theorem descend_eq : descend next domain pending = descendFrom next domain pending.reverse :=
  descendWithin_length_eq

theorem mem_domain_of_mem_descendFrom {a : α} (h : a ∈ descendFrom next domain pending) :
    a ∈ domain := by
  fun_induction descendFrom next domain pending with
  | case1 => simp at h
  | case2 domain b pending hb ih =>
      rw [List.mem_cons] at h
      rcases h with rfl | h
      · exact hb
      · exact List.mem_of_mem_erase (ih h)
  | case3 domain b pending hb ih =>
      exact ih h

theorem mem_descendFrom_of_pending {a : α} (hpending : a ∈ pending) (hdomain : a ∈ domain) :
    a ∈ descendFrom next domain pending := by
  fun_induction descendFrom next domain pending with
  | case1 => cases hpending
  | case2 domain b pending hb ih =>
      rw [List.mem_cons]
      by_cases hab : a = b
      · exact Or.inl hab
      · right
        apply ih
        · exact List.mem_append_right _ ((List.mem_cons.1 hpending).resolve_left hab)
        · exact (List.mem_erase_of_ne hab).2 hdomain
  | case3 domain b pending hb ih =>
      have hab : a ≠ b := fun same => hb (same ▸ hdomain)
      exact ih ((List.mem_cons.1 hpending).resolve_left hab) hdomain

/-- What follows a listed member is listed, if it is in the domain. -/
theorem mem_descendFrom_of_next {a b : α} (ha : a ∈ descendFrom next domain pending)
    (hnext : b ∈ next a) (hdomain : b ∈ domain) : b ∈ descendFrom next domain pending := by
  fun_induction descendFrom next domain pending with
  | case1 => simp at ha
  | case2 domain c pending hc ih =>
      rw [List.mem_cons] at ha ⊢
      by_cases hbc : b = c
      · exact Or.inl hbc
      · right
        have hrest : b ∈ domain.erase c := (List.mem_erase_of_ne hbc).2 hdomain
        rcases ha with rfl | ha
        · apply mem_descendFrom_of_pending _ hrest
          exact List.mem_append_left _ (List.mem_reverse.2 hnext)
        · exact ih ha hrest
  | case3 domain c pending hc ih =>
      exact ih ha hdomain

/-- Nothing is listed but what the pending members lead to. -/
theorem descendFrom_induction {P : α → Prop} (hpending : ∀ a ∈ pending, P a)
    (hnext : ∀ a ∈ domain, P a → ∀ b ∈ next a, P b) :
    ∀ a ∈ descendFrom next domain pending, P a := by
  fun_induction descendFrom next domain pending with
  | case1 => simp
  | case2 domain c pending hc ih =>
      have hcP : P c := hpending c (List.mem_cons_self ..)
      intro a ha
      rcases List.mem_cons.1 ha with rfl | ha
      · exact hcP
      · refine ih ?_ ?_ a ha
        · intro b hb
          rcases List.mem_append.1 hb with hb | hb
          · exact hnext c hc hcP b (List.mem_reverse.1 hb)
          · exact hpending b (List.mem_cons_of_mem _ hb)
        · intro b hb
          exact hnext b (List.mem_of_mem_erase hb)
  | case3 domain c pending hc ih =>
      exact ih (fun a ha => hpending a (List.mem_cons_of_mem _ ha)) hnext

theorem nodup_descendFrom (hdomain : domain.Nodup) :
    (descendFrom next domain pending).Nodup := by
  fun_induction descendFrom next domain pending with
  | case1 => simp
  | case2 domain c pending hc ih =>
      rw [List.nodup_cons]
      refine ⟨?_, ih (hdomain.erase c)⟩
      intro again
      exact hdomain.not_mem_erase (mem_domain_of_mem_descendFrom again)
  | case3 domain c pending hc ih =>
      exact ih hdomain

end Entailment
