import Entailment.Proofs.Matching.Unification
import Entailment.Proofs.Rule.Consequence

/-!
# The values in an instance

Over triples in which nothing is nested, the variables of an instance have simple nodes
as their values, and so have the triples that follow.  A call sees these values, and
variables that no pattern of the body has.
-/

namespace Entailment

/-- The parts of a simple functor are no functors. -/
theorem vocabulary_simple : Vocabulary Node.Simple where
  congr h hm := hm.congr h
  args h a ha := ⟨Node.allGround_iff.1 h.ground a ha, vocabulary_not_nested.args h.flat a ha⟩

theorem Triple.madeOf_simple_iff {t : Triple} :
    t.MadeOf Node.Simple ↔ t.isGround = true ∧ t.Shallow := by
  rw [isGround_iff_nodes]
  exact ⟨fun h => ⟨fun n hn => (h n hn).ground, fun n hn => (h n hn).shallow⟩,
    fun h n hn => (h.2 n hn).simple (h.1 n hn)⟩

namespace Rule

variable {r : Rule} {σ : Assignment} {v : Var}

theorem resolve_environment (hlt : v.index < r.numVars) (hv : v.index ∈ r.boundIndexes)
    (hsimple : (σ v.index).Simple) : (r.environment σ).resolve (.var v) = some (σ v.index) := by
  have hslot := r.slot?_environment σ v.index
  rw [if_pos hlt, if_pos hv] at hslot
  rw [Bindings.resolve_var, (Bindings.Leads.ground hslot).deref_eq]
  exact (Bindings.resolveTerm_of_ground hsimple.ground).trans
    (if_neg (Bool.eq_false_iff.1 hsimple.flat))

theorem resolve_environment_of_not_mem (hv : v.index ∉ r.boundIndexes) :
    (r.environment σ).resolve (.var v) = none := by
  by_cases hlt : v.index < r.numVars
  · have hslot := r.slot?_environment σ v.index
    rw [if_pos hlt, if_neg hv] at hslot
    exact (Bindings.Leads.unbound hslot).resolve_unbound
  · refine Bindings.resolve_of_length_le ?_
    rw [length_environment]
    exact Nat.le_of_not_lt hlt

theorem ground_environment (h : ∀ i ∈ r.boundIndexes, (σ i).isGround = true) :
    (r.environment σ).Ground := by
  intro i s hs
  rw [slot?_environment] at hs
  split at hs
  · split at hs
    · rename_i hi
      cases hs
      exact Or.inr ⟨σ i, rfl, h i hi⟩
    · cases hs
      exact Or.inl rfl
  · cases hs

/-- The body's patterns determine what the head stands for. -/
def Determined (r : Rule) : Prop :=
  ∀ h, Clause.pattern h ∈ r.head →
    h.Shallow ∧ (∀ n ∈ h.nodes, n.isAny = false) ∧ ∀ i ∈ h.indexes, i ∈ r.boundIndexes

/-- The values of bound variables are parts of the triples of the body. -/
theorem simple_of_fits {S : Set Triple} (h : ∀ p, Clause.pattern p ∈ r.body → ∃ t ∈ S, p.Fits σ t)
    (hS : ∀ t ∈ S, t.MadeOf Node.Simple) : ∀ i ∈ r.boundIndexes, (σ i).Simple := by
  intro i hi
  obtain ⟨p, hp, hmem⟩ := mem_boundIndexes_iff.1 hi
  obtain ⟨t, ht, hfits⟩ := h p hp
  exact vocabulary_simple.of_triple_fits hfits (hS t ht) i hmem

theorem Determined.simple_of_conclusions {registry : Registry} {S : Set Triple}
    (hr : r.Determined) (hS : ∀ t ∈ S, t.MadeOf Node.Simple) :
    ∀ t ∈ r.conclusions registry S, t.MadeOf Node.Simple := by
  rintro t ⟨σ, happlies, h, hh, hfits⟩
  obtain ⟨hshallow, hclosed, hbound⟩ := hr h hh
  have hvalue : ∀ i ∈ h.indexes, (σ i).Simple := fun i hi =>
    simple_of_fits happlies.patterns hS i (hbound i hi)
  have hnode : ∀ n ∈ h.nodes, (∀ i ∈ n.indexes, (σ i).Simple) → ∀ m, n.Fits σ m → m.Simple := by
    intro n hn hindexes m hm
    have hany := hclosed n hn
    rcases (hshallow n hn).cases with rfl | ⟨v, rfl⟩ | hsimple
    · cases hany
    · exact (hindexes v.index (List.mem_singleton.2 rfl)).congr hm
    · exact hsimple.congr ((Node.fits_iff_beq hsimple.ground).1 hm)
  rw [Triple.indexes_eq] at hvalue
  intro n hn
  simp only [Triple.nodes, List.mem_cons, List.not_mem_nil, or_false] at hn
  rcases hn with rfl | rfl | rfl
  · exact hnode h.subject (by simp [Triple.nodes]) (fun i hi => hvalue i (by simp [hi])) _
      hfits.subject
  · exact hnode h.predicate (by simp [Triple.nodes]) (fun i hi => hvalue i (by simp [hi])) _
      hfits.predicate
  · exact hnode h.object (by simp [Triple.nodes]) (fun i hi => hvalue i (by simp [hi])) _
      hfits.object

end Rule

section Heights

variable {rules : List Rule} {registry : Registry} {stored : Set Triple}

theorem simple_of_derivable (hrules : ∀ r ∈ rules, r.Determined)
    (hstored : ∀ t ∈ stored, t.MadeOf Node.Simple) (height : Nat) :
    ∀ t ∈ derivable rules registry stored height, t.MadeOf Node.Simple := by
  induction height with
  | zero => exact hstored
  | succ height ih =>
      rintro t (ht | ⟨r, hr, ht⟩)
      · exact hstored t ht
      · exact (hrules r hr).simple_of_conclusions ih t ht

/-- What follows is ground and nothing in it is nested. -/
theorem simple_of_consequences (hrules : ∀ r ∈ rules, r.Determined)
    (hstored : ∀ t ∈ stored, t.MadeOf Node.Simple) :
    ∀ t ∈ consequences rules registry stored, t.MadeOf Node.Simple :=
  fun t ⟨height, ht⟩ => simple_of_derivable hrules hstored height t ht

end Heights

end Entailment
