import Entailment.Proofs.Collection.Occurrence
import Entailment.Term.Triple

/-!
# Variables numbered by keys

Rules number their variables by name, shapes by index.  Both give a variable the place of
its key among the keys met so far, and a new one the next place.  What a traversal makes
of a term in this way is a renaming: every variable gets the place of its key in one list
of keys, which later keys do not change.
-/

namespace Entailment

section Placement

variable {κ : Type} [DecidableEq κ] (key : Var → κ) (label : Var → String)

/-- The variable with the place of its key. -/
def placeBy (keys : List κ) (v : Var) : Var := ⟨label v, keys.idxOf (key v)⟩

/-- Numbers a variable, and takes note of its key if it is new. -/
def numberBy (met : List κ) (v : Var) : Node × List κ :=
  match met.idxOf? (key v) with
  | some i => (.var ⟨label v, i⟩, met)
  | none => (.var ⟨label v, met.length⟩, met ++ [key v])

/-- Leaves a wildcard as it is. -/
def passAny (met : List κ) : Node × List κ := (.any, met)

/-- The numbering has gone on over these variables and given what they are part of the
places of their keys, which later keys do not change. -/
structure PlacesBy {α : Type} (met met' : List κ) (vars : List Var) (result : α)
    (renamed : (Var → Var) → α) : Prop where
  met_eq : met' = metAfter met (vars.map key)
  result_eq : ∀ final, met' <+: final → result = renamed (placeBy key label final)

variable {key : Var → κ} {label : Var → String}

namespace PlacesBy

variable {α β δ : Type} {met met₁ met₂ : List κ} {vs ws : List Var}

theorem fixed (met : List κ) (a : α) : PlacesBy key label met met [] a fun _ => a :=
  ⟨rfl, fun _ _ => rfl⟩

theorem combine {a : α} {b : β} {f : (Var → Var) → α} {g : (Var → Var) → β}
    (h : PlacesBy key label met met₁ vs a f) (k : PlacesBy key label met₁ met₂ ws b g)
    (join : α → β → δ) :
    PlacesBy key label met met₂ (vs ++ ws) (join a b) fun image => join (f image) (g image) where
  met_eq := by rw [k.met_eq, h.met_eq, List.map_append, metAfter_append]
  result_eq final hfinal := by
    have hmet : met₁ <+: met₂ := by
      rw [k.met_eq]
      exact prefix_metAfter ..
    rw [h.result_eq final (hmet.trans hfinal), k.result_eq final hfinal]

theorem map {a : α} {f : (Var → Var) → α} (h : PlacesBy key label met met₁ vs a f) (g : α → β) :
    PlacesBy key label met met₁ vs (g a) fun image => g (f image) :=
  { h with result_eq := fun final hfinal => by rw [h.result_eq final hfinal] }

theorem key_mem {a : α} {f : (Var → Var) → α} (h : PlacesBy key label met met₁ vs a f) {v : Var}
    (hv : v ∈ vs) : key v ∈ met₁ := by
  rw [h.met_eq]
  exact mem_metAfter.2 (Or.inr (List.mem_map_of_mem hv))

end PlacesBy

theorem idxOf_of_prefix {keys final : List κ} {k : κ} (h : keys <+: final) (hmem : k ∈ keys) :
    final.idxOf k = keys.idxOf k := by
  obtain ⟨rest, rfl⟩ := h
  exact List.idxOf_append_of_mem hmem

variable (key label)

theorem placesBy_number (met : List κ) (v : Var) :
    PlacesBy key label met (numberBy key label met v).2 [v] (numberBy key label met v).1
      fun image => .var (image v) := by
  unfold numberBy
  cases h : met.idxOf? (key v) with
  | some i =>
      have hmem : key v ∈ met := by
        rw [← List.isSome_idxOf?, h]
        rfl
      have hi : met.idxOf (key v) = i := by
        rw [List.idxOf_eq_getD_idxOf?, h]
        rfl
      refine ⟨?_, fun final hfinal => ?_⟩
      · rw [List.map_singleton, metAfter_cons, if_pos hmem]
        rfl
      · rw [placeBy, idxOf_of_prefix hfinal hmem, hi]
  | none =>
      have hnew : key v ∉ met := by
        rw [← List.isSome_idxOf?, h]
        exact Bool.false_ne_true
      refine ⟨?_, fun final hfinal => ?_⟩
      · rw [List.map_singleton, metAfter_cons, if_neg hnew]
        rfl
      · have hmem : key v ∈ met ++ [key v] := by simp
        rw [placeBy, idxOf_of_prefix hfinal hmem, List.idxOf_append_of_notMem hnew]
        simp

mutual
theorem placesBy_traverse (met : List κ) (n : Node) :
    PlacesBy key label met (n.traverse (numberBy key label) passAny met).2 n.vars
      (n.traverse (numberBy key label) passAny met).1
      fun image => n.subst fun v => .var (image v) := by
  cases n with
  | var v => exact placesBy_number key label met v
  | functor f args => exact (placesBy_traverseAll met args).map (Node.functor f)
  | _ => exact .fixed met _

theorem placesBy_traverseAll (met : List κ) (ns : List Node) :
    PlacesBy key label met (Node.traverseAll (numberBy key label) passAny met ns).2
      (Node.varsAll ns) (Node.traverseAll (numberBy key label) passAny met ns).1
      fun image => Node.substAll (fun v => .var (image v)) ns := by
  match ns with
  | [] => exact .fixed met _
  | n :: ns =>
      exact (placesBy_traverse met n).combine (placesBy_traverseAll _ ns) List.cons
end

/-- The triple with its variables renamed. -/
def Triple.renamed (f : Var → Var) (t : Triple) : Triple :=
  t.map (Node.subst fun v => .var (f v))

theorem placesBy_triple (met : List κ) (t : Triple) :
    PlacesBy key label met (t.traverse (numberBy key label) passAny met).2 t.vars
      (t.traverse (numberBy key label) passAny met).1 fun image => t.renamed image := by
  have hs := placesBy_traverse key label met t.subject
  have hp := placesBy_traverse key label
    (t.subject.traverse (numberBy key label) passAny met).2 t.predicate
  have ho := placesBy_traverse key label
    (t.predicate.traverse (numberBy key label) passAny
      (t.subject.traverse (numberBy key label) passAny met).2).2 t.object
  exact (hs.combine hp Prod.mk).combine ho fun sp o => (⟨sp.1, sp.2, o⟩ : Triple)

end Placement

end Entailment
