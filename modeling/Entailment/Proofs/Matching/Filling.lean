import Entailment.Proofs.Matching.Unification

/-!
# Patterns filled in

An assignment fills a pattern in by putting its node for each variable.  In a pattern
without wildcards, at whatever depth, this says what a fact has to be: the fact fits the
pattern if and only if it is the pattern filled in.
-/

namespace Entailment

namespace Node

mutual
/-- No wildcard occurs in the node. -/
def noWildcard : Node → Bool
  | .any => false
  | .functor _ args => noWildcards args
  | _ => true

def noWildcards : List Node → Bool
  | [] => true
  | n :: rest => n.noWildcard && noWildcards rest
end

/-- The node with its node for each variable. -/
abbrev filled (σ : Assignment) (n : Node) : Node := n.subst fun v => σ v.index

abbrev allFilled (σ : Assignment) (ns : List Node) : List Node :=
  substAll (fun v => σ v.index) ns

variable {σ : Assignment} {n : Node}

theorem isAny_of_noWildcard (h : n.noWildcard = true) : n.isAny = false := by
  cases n with
  | any => cases h
  | _ => rfl

mutual
/-- Without wildcards, what fits a pattern is the pattern filled in. -/
theorem fits_iff_filled {p n : Node} (hp : p.noWildcard = true) :
    p.Fits σ n ↔ (p.filled σ == n) = true := by
  match p, n with
  | .var v, n => exact Iff.rfl
  | .any, n => cases hp
  | .functor f ps, .functor g ns =>
      change f = g ∧ AllFit σ ps ns ↔ (Node.functor f (allFilled σ ps) == Node.functor g ns) = true
      rw [functor_beq, Bool.and_eq_true, beq_iff_eq, allFit_iff_filled hp]
  | .functor f ps, .uri _ | .functor f ps, .literal _ | .functor f ps, .blank _
  | .functor f ps, .var _ | .functor f ps, .any => exact ⟨(fun h => nomatch h), (fun h => nomatch h)⟩
  | .uri _, n | .literal _, n | .blank _, n => exact Iff.rfl

theorem allFit_iff_filled {ps ns : List Node} (hps : noWildcards ps = true) :
    AllFit σ ps ns ↔ (allFilled σ ps == ns) = true := by
  match ps, ns with
  | [], [] => exact ⟨fun _ => rfl, fun _ => trivial⟩
  | [], _ :: _ | _ :: _, [] => exact ⟨(fun h => nomatch h), (fun h => nomatch h)⟩
  | p :: ps, n :: ns =>
      rw [noWildcards, Bool.and_eq_true] at hps
      simp only [allFilled, substAll]
      rw [list_beq_cons, Bool.and_eq_true]
      exact and_congr (fits_iff_filled hps.1) (allFit_iff_filled hps.2)
end

theorem Shallow.filled_eq (hn : n.Shallow) (σ : Assignment) : n.filled σ = n.under σ := by
  rcases hn.cases with rfl | ⟨v, rfl⟩ | hsimple
  · rfl
  · rfl
  · rw [under_of_ground hsimple.ground]
    exact subst_of_ground hsimple.ground _

end Node

namespace Triple

variable {σ τ : Assignment} {p t : Triple}

/-- No wildcard occurs in the triple. -/
def NoWildcard (t : Triple) : Prop := ∀ n ∈ t.nodes, n.noWildcard = true

theorem noWildcard_iff : t.NoWildcard ↔ t.subject.noWildcard = true ∧
    t.predicate.noWildcard = true ∧ t.object.noWildcard = true := by
  simp [NoWildcard, nodes]

/-- The triple with its node for each variable. -/
def filled (σ : Assignment) (t : Triple) : Triple := t.map (Node.filled σ)

theorem fits_iff_filled (hp : p.NoWildcard) : p.Fits σ t ↔ (p.filled σ == t) = true := by
  obtain ⟨hs, hpred, ho⟩ := noWildcard_iff.1 hp
  have hsubject := Node.fits_iff_filled (σ := σ) (n := t.subject) hs
  have hpredicate := Node.fits_iff_filled (σ := σ) (n := t.predicate) hpred
  have hobject := Node.fits_iff_filled (σ := σ) (n := t.object) ho
  rw [beq_iff]
  exact ⟨fun h => ⟨hsubject.1 h.subject, hpredicate.1 h.predicate, hobject.1 h.object⟩,
    fun h => ⟨hsubject.2 h.1, hpredicate.2 h.2.1, hobject.2 h.2.2⟩⟩

theorem filled_congr (hp : p.NoWildcard) (h : ∀ i ∈ p.indexes, (σ i == τ i) = true) :
    (p.filled σ == p.filled τ) = true := by
  have hfits : p.Fits σ (p.filled σ) := (fits_iff_filled hp).2 BEq.rfl
  have hfits' : p.Fits τ (p.filled σ) := hfits.congr h BEq.rfl
  exact BEq.symm ((fits_iff_filled hp).1 hfits')

end Triple

end Entailment
