import Entailment.Proofs.Rule.Renaming
import Entailment.Term.Shape

/-!
# Shapes keep what fits

The shape of a triple numbers its variables in the order of their first occurrence, which
is a renaming.  The same facts fit a triple and its shape, under assignments that
correspond by this numbering, so triples of equal shapes have the same instances.
-/

namespace Entailment

open Node (AllFit)

/-! ## Equal patterns -/

mutual
theorem Node.fits_of_beq {σ : Assignment} {p q n : Node} (h : (p == q) = true)
    (hfits : p.Fits σ n) : q.Fits σ n := by
  cases p with
  | var v =>
      cases q with
      | var w =>
          have hvw : v = w := by simpa [Node.beq_eq_same, Node.same] using h
          exact hvw ▸ hfits
      | _ => cases h
  | any =>
      cases q with
      | any => trivial
      | _ => cases h
  | functor f ps =>
      cases q with
      | functor g qs =>
          rw [Node.functor_beq, Bool.and_eq_true, beq_iff_eq] at h
          cases n with
          | functor k ns => exact ⟨h.1 ▸ hfits.1, AllFit.of_beq h.2 hfits.2⟩
          | _ => cases hfits
      | _ => cases h
  | uri u =>
      cases q with
      | uri w => exact BEq.trans (BEq.symm h) (hfits : (Node.uri u == n) = true)
      | _ => cases h
  | literal l =>
      cases q with
      | literal w => exact BEq.trans (BEq.symm h) (hfits : (Node.literal l == n) = true)
      | _ => cases h
  | blank k =>
      cases q with
      | blank w => exact BEq.trans (BEq.symm h) (hfits : (Node.blank k == n) = true)
      | _ => cases h

theorem Node.AllFit.of_beq {σ : Assignment} {ps qs ns : List Node} (h : (ps == qs) = true)
    (hfits : AllFit σ ps ns) : AllFit σ qs ns := by
  match ps, qs, ns with
  | [], [], [] => trivial
  | p :: ps, q :: qs, n :: ns =>
      rw [list_beq_cons, Bool.and_eq_true] at h
      exact ⟨Node.fits_of_beq h.1 hfits.1, AllFit.of_beq h.2 hfits.2⟩
  | [], [], _ :: _ => cases hfits
  | _ :: _, _ :: _, [] => cases hfits
  | [], _ :: _, _ => cases h
  | _ :: _, [], _ => cases h
end

theorem Triple.fits_of_beq {σ : Assignment} {p q t : Triple} (h : (p == q) = true)
    (hfits : p.Fits σ t) : q.Fits σ t := by
  obtain ⟨hs, hp, ho⟩ := Triple.beq_iff.1 h
  exact ⟨Node.fits_of_beq hs hfits.subject, Node.fits_of_beq hp hfits.predicate,
    Node.fits_of_beq ho hfits.object⟩

mutual
theorem Node.vars_of_beq {p q : Node} (h : (p == q) = true) : p.vars = q.vars := by
  cases p with
  | var v =>
      cases q with
      | var w =>
          have hvw : v = w := by simpa [Node.beq_eq_same, Node.same] using h
          rw [hvw]
      | _ => cases h
  | functor f ps =>
      cases q with
      | functor g qs =>
          rw [Node.functor_beq, Bool.and_eq_true] at h
          exact Node.varsAll_of_beq h.2
      | _ => cases h
  | _ =>
      cases q with
      | var w => cases h
      | functor g qs => cases h
      | _ => rfl

theorem Node.varsAll_of_beq {ps qs : List Node} (h : (ps == qs) = true) :
    Node.varsAll ps = Node.varsAll qs := by
  match ps, qs with
  | [], [] => rfl
  | p :: ps, q :: qs =>
      rw [list_beq_cons, Bool.and_eq_true] at h
      rw [Node.varsAll, Node.varsAll, Node.vars_of_beq h.1, Node.varsAll_of_beq h.2]
  | [], _ :: _ => cases h
  | _ :: _, [] => cases h
end

/-! ## Shapes of triples -/

namespace Triple

/-- The shape is the triple with every variable renamed by the place of its index. -/
theorem numberedShape_eq (t : Triple) : t.numberedShape =
    (t.renamed (placeBy Var.index (fun _ => "") t.varIndexes), t.varIndexes) := by
  have hplaces : PlacesBy Var.index (fun _ => "") [] t.numberedShape.2 t.vars t.numberedShape.1
      fun image => t.renamed image := placesBy_triple Var.index (fun _ => "") [] t
  have hmet : t.numberedShape.2 = t.varIndexes :=
    hplaces.met_eq.trans (metAfter_eraseDups [] _)
  rw [← hmet, ← hplaces.result_eq _ List.prefix_rfl]

theorem shape_eq (t : Triple) :
    t.shape = t.renamed (placeBy Var.index (fun _ => "") t.varIndexes) := by
  rw [shape, numberedShape_eq]

theorem map_placeBy_vars (t : Triple) :
    t.vars.map (placeBy Var.index (fun _ => "") t.varIndexes) =
      (ranks t.indexes).map (Var.mk "") := by
  rw [ranks, indexes, List.map_map, List.map_map]
  rfl

theorem vars_shape (t : Triple) : t.shape.vars = (ranks t.indexes).map (Var.mk "") := by
  rw [shape_eq, vars_renamed, map_placeBy_vars]

theorem indexes_shape (t : Triple) : t.shape.indexes = ranks t.indexes := by
  rw [indexes, vars_shape, List.map_map]
  exact List.map_id _

variable {p t : Triple} {σ τ : Assignment}

theorem lt_varCount_of_mem_indexes_shape {j : Nat} (h : j ∈ p.shape.indexes) :
    j < p.varCount := by
  rw [indexes_shape] at h
  obtain ⟨i, hi, rfl⟩ := List.mem_map.1 h
  rw [varCount, numberedShape_eq]
  exact List.idxOf_lt_length_iff.2 (List.mem_eraseDups.2 hi)

theorem shape_fits (h : p.Fits σ t) : ∃ τ, p.shape.Fits τ t := by
  refine ⟨fun j => σ ((p.varIndexes[j]?).getD 0), ?_⟩
  rw [shape_eq, fits_renamed_iff]
  · exact h
  · intro v hv
    have hmem : v.index ∈ p.varIndexes := List.mem_eraseDups.2 (List.mem_map_of_mem hv)
    simp only [placeBy, List.getElem?_idxOf hmem, Option.getD_some]
    exact BEq.rfl

/-- What fits the shape of a pattern fits the pattern, its variables being different. -/
theorem fits_of_shape_fits (h : p.shape.Fits τ t) : ∃ σ, p.Fits σ t := by
  rw [shape_eq] at h
  refine ⟨fun i => τ (p.varIndexes.idxOf i), (fits_renamed_iff fun v _ => ?_).1 h⟩
  exact BEq.rfl

end Triple

end Entailment
