import Entailment.Proofs.Collection.Lookup
import Entailment.Proofs.Term.Equality

/-!
# When a fact fits a pattern

An assignment gives every variable index a node.  A node fits a pattern under it when
the two become equal once the variables are replaced, a wildcard being equal to
anything.  This is the reading of patterns that no algorithm is part of.
-/

namespace Entailment

/-- A node for every variable index. -/
abbrev Assignment := Nat → Node

namespace Node

mutual
/-- The node in the second place is what the pattern in the first one stands for. -/
def Fits (σ : Assignment) : Node → Node → Prop
  | .var v, n => (σ v.index == n) = true
  | .any, _ => True
  | .functor f ps, .functor g ns => f = g ∧ AllFit σ ps ns
  | p, n => (p == n) = true

def AllFit (σ : Assignment) : List Node → List Node → Prop
  | [], [] => True
  | p :: ps, n :: ns => p.Fits σ n ∧ AllFit σ ps ns
  | _, _ => False
end

/-- The indexes of the variables. -/
def indexes (n : Node) : List Nat := n.vars.map Var.index

def indexesAll (ns : List Node) : List Nat := (varsAll ns).map Var.index

theorem indexesAll_cons (n : Node) (ns : List Node) :
    indexesAll (n :: ns) = n.indexes ++ indexesAll ns := by
  simp [indexesAll, indexes, varsAll]

theorem mem_indexesAll {ns : List Node} {i : Nat} :
    i ∈ indexesAll ns ↔ ∃ n ∈ ns, i ∈ n.indexes := by
  induction ns with
  | nil => exact ⟨(fun h => nomatch h), fun ⟨_, h, _⟩ => nomatch h⟩
  | cons n ns ih =>
      rw [indexesAll_cons, List.mem_append, ih]
      simp

theorem indexes_subset {n : Node} {ns : List Node} {is : List Nat} (h : indexesAll ns ⊆ is)
    (hn : n ∈ ns) : n.indexes ⊆ is :=
  fun _ hi => h (mem_indexesAll.2 ⟨n, hn, hi⟩)

variable {σ τ : Assignment}

mutual
theorem Fits.congr {p m n : Node} (hvars : ∀ i ∈ p.indexes, (σ i == τ i) = true)
    (hnode : (m == n) = true) (h : p.Fits σ m) : p.Fits τ n := by
  cases p with
  | var v =>
      have hv : (σ v.index == τ v.index) = true := hvars v.index (by simp [indexes, vars])
      exact BEq.trans (BEq.symm hv) (BEq.trans h hnode)
  | any => trivial
  | functor f ps =>
      cases m with
      | functor g ms =>
          cases n with
          | functor k ns =>
              rw [functor_beq, Bool.and_eq_true, beq_iff_eq] at hnode
              exact ⟨h.1.trans hnode.1, AllFit.congr hvars hnode.2 h.2⟩
          | _ => cases hnode
      | _ => cases h
  | uri u => exact BEq.trans (h : (Node.uri u == m) = true) hnode
  | literal l => exact BEq.trans (h : (Node.literal l == m) = true) hnode
  | blank k => exact BEq.trans (h : (Node.blank k == m) = true) hnode

theorem AllFit.congr {ps ms ns : List Node} (hvars : ∀ i ∈ indexesAll ps, (σ i == τ i) = true)
    (hnodes : (ms == ns) = true) (h : AllFit σ ps ms) : AllFit τ ps ns := by
  match ps, ms, ns with
  | [], [], [] => trivial
  | p :: ps, m :: ms, n :: ns =>
      rw [list_beq_cons, Bool.and_eq_true] at hnodes
      rw [indexesAll_cons] at hvars
      refine ⟨Fits.congr ?_ hnodes.1 h.1, AllFit.congr ?_ hnodes.2 h.2⟩
      · intro i hi
        exact hvars i (List.mem_append_left _ hi)
      · intro i hi
        exact hvars i (List.mem_append_right _ hi)
  | [], [], _ :: _ => cases hnodes
  | _ :: _, _ :: _, [] => cases hnodes
  | [], _ :: _, _ => cases h
  | _ :: _, [], _ => cases h
end

theorem AllFit.length_eq {ps ns : List Node} (h : AllFit σ ps ns) : ps.length = ns.length := by
  induction ps generalizing ns with
  | nil =>
      cases ns with
      | nil => rfl
      | cons n ns => cases h
  | cons p ps ih =>
      cases ns with
      | nil => cases h
      | cons n ns => rw [List.length_cons, List.length_cons, ih h.2]

mutual
/-- A ground pattern is fitted by what equals it. -/
theorem fits_iff_beq {p n : Node} (hp : p.isGround = true) :
    p.Fits σ n ↔ (p == n) = true := by
  cases p with
  | var v => cases hp
  | any => cases hp
  | functor f ps =>
      cases n with
      | functor g ns =>
          rw [functor_beq, Bool.and_eq_true, beq_iff_eq]
          exact and_congr_right fun _ => allFit_iff_beq hp
      | _ => exact ⟨(fun h => nomatch h), (fun h => nomatch h)⟩
  | _ => exact Iff.rfl

theorem allFit_iff_beq {ps ns : List Node} (hps : allGround ps = true) :
    AllFit σ ps ns ↔ (ps == ns) = true := by
  match ps, ns with
  | [], [] => exact ⟨fun _ => rfl, fun _ => trivial⟩
  | p :: ps, n :: ns =>
      rw [allGround, Bool.and_eq_true] at hps
      rw [list_beq_cons, Bool.and_eq_true]
      exact and_congr (fits_iff_beq hps.1) (allFit_iff_beq hps.2)
  | [], _ :: _ => exact ⟨(fun h => nomatch h), (fun h => nomatch h)⟩
  | _ :: _, [] => exact ⟨(fun h => nomatch h), (fun h => nomatch h)⟩
end

end Node

namespace Triple

/-- The fact is what the pattern stands for under the assignment. -/
structure Fits (σ : Assignment) (p t : Triple) : Prop where
  subject : p.subject.Fits σ t.subject
  predicate : p.predicate.Fits σ t.predicate
  object : p.object.Fits σ t.object

def indexes (t : Triple) : List Nat := t.vars.map Var.index

theorem indexes_eq (t : Triple) :
    t.indexes = t.subject.indexes ++ t.predicate.indexes ++ t.object.indexes := by
  simp [indexes, vars, Node.indexes]

theorem Fits.congr {σ τ : Assignment} {p t u : Triple}
    (hvars : ∀ i ∈ p.indexes, (σ i == τ i) = true) (htriple : (t == u) = true)
    (h : p.Fits σ t) : p.Fits τ u := by
  obtain ⟨hs, hp, ho⟩ := beq_iff.1 htriple
  rw [indexes_eq] at hvars
  refine ⟨h.subject.congr ?_ hs, h.predicate.congr ?_ hp, h.object.congr ?_ ho⟩
  · intro i hi
    exact hvars i (List.mem_append_left _ (List.mem_append_left _ hi))
  · intro i hi
    exact hvars i (List.mem_append_left _ (List.mem_append_right _ hi))
  · intro i hi
    exact hvars i (List.mem_append_right _ hi)

end Triple

end Entailment
