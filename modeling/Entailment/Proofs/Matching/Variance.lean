import Entailment.Proofs.Matching.Ground
import Entailment.Proofs.Rule.Similarity
import Mathlib.Algebra.Order.BigOperators.Group.List
import Mathlib.Algebra.Order.Group.Nat
import Mathlib.Data.Finset.Card

/-!
# Shapes decide variance

The shape of a triple gives its variables their ranks among the variable indexes and takes
their names away.  Two triples have equal shapes exactly if numbering the variables of the
one anew, one-to-one, makes it the other up to names.  A shape is its own shape, and
matches the same facts as the triple in an environment that has as many slots as the
triple has variables.
-/

namespace Entailment

/-! ## Ranks and renamings -/

/-- The other numbers go beyond all images, so that no two numbers get the same one. -/
theorem exists_injective_of_injOn {f : Nat → Nat} {is : List Nat} (h : Set.InjOn f {i | i ∈ is}) :
    ∃ ρ : Nat → Nat, Function.Injective ρ ∧ is.map ρ = is.map f := by
  have hbound : ∀ i ∈ is, f i ≤ (is.map f).sum := fun i hi =>
    List.single_le_sum (fun _ _ => Nat.zero_le _) _ (List.mem_map_of_mem hi)
  refine ⟨fun i => if i ∈ is then f i else (is.map f).sum + 1 + i, ?_, ?_⟩
  · intro i j hij
    by_cases hi : i ∈ is
    · have hfi := hbound i hi
      by_cases hj : j ∈ is
      · simp only [hi, hj, if_true] at hij
        exact h hi hj hij
      · simp only [hi, hj, if_true, if_false] at hij
        omega
    · by_cases hj : j ∈ is
      · have hfj := hbound j hj
        simp only [hi, hj, if_true, if_false] at hij
        omega
      · simp only [hi, hj, if_false] at hij
        omega
  · exact List.map_congr_left fun i hi => if_pos hi

/-- Numbers have equal ranks exactly if they are one-to-one images of each other. -/
theorem ranks_eq_iff {is js : List Nat} :
    ranks is = ranks js ↔ ∃ ρ : Nat → Nat, Function.Injective ρ ∧ is.map ρ = js := by
  constructor
  · intro h
    obtain ⟨f, hf, rfl⟩ := exists_map_eq_iff.2 (ranks_eq_ranks_iff.1 h)
    exact exists_injective_of_injOn hf
  · rintro ⟨ρ, hρ, rfl⟩
    exact (ranks_map hρ.injOn).symm

namespace Triple

/-! ## Shapes as renamings -/

/-- The triple with its variables numbered anew. -/
def reindexed (ρ : Nat → Nat) (t : Triple) : Triple :=
  t.renamed fun v => { v with index := ρ v.index }

/-- The triple without the names of its variables. -/
def unnamed (t : Triple) : Triple := t.renamed fun v => ⟨"", v.index⟩

/-- As many slots are counted as the triple has different variables. -/
theorem varCount_eq (t : Triple) : t.varCount = t.indexes.toFinset.card := by
  rw [varCount, numberedShape_eq, varIndexes, ← List.toFinset_card_of_nodup (nodup_eraseDups _)]
  congr 1
  ext i
  simp [indexes]

/-- Only names are lost when equal numbers are compared as variables. -/
theorem map_nameless_inj {is js : List Nat} :
    is.map (Var.mk "") = js.map (Var.mk "") ↔ is = js := by
  have hinjective : Function.Injective (Var.mk "") := fun _ _ h => (Var.mk.inj h).2
  exact (List.map_injective_iff.2 hinjective).eq_iff

theorem similar_renamed (f g : Var → Var) (t u : Triple) :
    (t.renamed f).similar (u.renamed g) = t.similar u :=
  Clause.similar_renamed f g (.pattern t) (.pattern u)

theorem renamed_beq_renamed_iff {f g : Var → Var} {t u : Triple} :
    (t.renamed f == u.renamed g) = true ↔ t.similar u = true ∧ t.vars.map f = u.vars.map g := by
  have hself : t.renamed id = t := renamed_eq_self fun _ _ => rfl
  have hsimilar : t.similar (u.renamed g) = t.similar u := by
    rw [← similar_renamed id g t u, hself]
  rw [renamed_beq_iff, hsimilar, vars_renamed]

theorem shape_beq_shape_iff {t u : Triple} :
    (t.shape == u.shape) = true ↔ t.similar u = true ∧ ranks t.indexes = ranks u.indexes := by
  rw [shape_eq t, shape_eq u, renamed_beq_renamed_iff, map_placeBy_vars, map_placeBy_vars,
    map_nameless_inj]

theorem reindexed_unnamed_beq_iff {ρ : Nat → Nat} {t u : Triple} :
    ((t.reindexed ρ).unnamed == u.unnamed) = true ↔
      t.similar u = true ∧ t.indexes.map ρ = u.indexes := by
  have ht : t.vars.map (fun v => (⟨"", ρ v.index⟩ : Var)) =
      (t.indexes.map ρ).map (Var.mk "") := by
    rw [indexes, List.map_map, List.map_map]
    rfl
  have hu : u.vars.map (fun v => (⟨"", v.index⟩ : Var)) = u.indexes.map (Var.mk "") := by
    rw [indexes, List.map_map]
    rfl
  rw [reindexed, unnamed, unnamed, renamed_renamed, renamed_beq_renamed_iff, ht, hu,
    map_nameless_inj]

theorem shape_shape (t : Triple) : t.shape.shape = t.shape := by
  have hvars : t.shape.vars.map (placeBy Var.index (fun _ => "") t.shape.varIndexes) =
      t.shape.vars.map id := by
    rw [map_placeBy_vars, indexes_shape, ranks_ranks, List.map_id, vars_shape]
  rw [shape_eq t.shape]
  exact renamed_eq_self (List.map_inj_left.1 hvars)

/-! ## What shapes match -/

theorem unifyTriple_iff_fits {p t : Triple} {size : Nat} (ht : t.isGround = true)
    (hvars : ∀ i ∈ p.indexes, i < size) :
    ((Bindings.empty size).unifyTriple p t).1 = true ↔ ∃ σ, p.Fits σ t := by
  have hsolves := Bindings.solves_unifyTriple (Bindings.ground_empty size) p ht
  cases hanswer : ((Bindings.empty size).unifyTriple p t).1 with
  | true =>
      have hadmits := (hsolves.admits_iff hanswer _).1 (Bindings.admits_assignment _)
      exact ⟨fun _ => ⟨_, hadmits.2⟩, fun _ => rfl⟩
  | false =>
      have hrefutes := hsolves.refutes hanswer (by rwa [Bindings.length_empty])
      refine ⟨(fun h => nomatch h), fun ⟨σ, hσ⟩ => absurd hσ (hrefutes σ fun i n hn => ?_)⟩
      rw [Bindings.held?_empty] at hn
      cases hn

/-- A shape needs as many slots as the triple has different variables. -/
theorem lt_card_of_mem_indexes_shape {t : Triple} {i : Nat} (hi : i ∈ t.shape.indexes) :
    i < t.indexes.toFinset.card := by
  rw [← varCount_eq]
  exact lt_varCount_of_mem_indexes_shape hi

theorem unifyTriple_shape_iff {p t : Triple} {size : Nat} (ht : t.isGround = true)
    (hvars : ∀ i ∈ p.indexes, i < size) :
    ((Bindings.empty size).unifyTriple p t).1 = true ↔
      ((Bindings.empty p.indexes.toFinset.card).unifyTriple p.shape t).1 = true := by
  rw [unifyTriple_iff_fits ht hvars, unifyTriple_iff_fits ht fun _ => lt_card_of_mem_indexes_shape]
  exact ⟨fun ⟨_, h⟩ => shape_fits h, fun ⟨_, h⟩ => fits_of_shape_fits h⟩

/-- Triples have equal shapes if and only if a one-to-one numbering of the variables of the
one makes it the other up to names; a shape is its own shape; and in an environment with one
slot for each different variable, a shape matches the facts that the triple matches in any
environment with slots for its variables. -/
theorem shape_decides_variance (g h : Triple) :
    ((g.shape == h.shape) = true ↔ ∃ ρ : Nat → Nat, Function.Injective ρ ∧
        ((g.reindexed ρ).unnamed == h.unnamed) = true) ∧
      g.shape.shape = g.shape ∧
      g.varCount = g.indexes.toFinset.card ∧
      ∀ (t : Triple) (size : Nat), t.isGround = true → (∀ i ∈ g.indexes, i < size) →
        (((Bindings.empty size).unifyTriple g t).1 = true ↔
          ((Bindings.empty g.indexes.toFinset.card).unifyTriple g.shape t).1 = true) := by
  refine ⟨?_, shape_shape g, varCount_eq g, fun t size ht hvars => unifyTriple_shape_iff ht hvars⟩
  rw [shape_beq_shape_iff, ranks_eq_iff]
  constructor
  · rintro ⟨hsimilar, ρ, hρ, hindexes⟩
    exact ⟨ρ, hρ, reindexed_unnamed_beq_iff.2 ⟨hsimilar, hindexes⟩⟩
  · rintro ⟨ρ, hρ, hsame⟩
    obtain ⟨hsimilar, hindexes⟩ := reindexed_unnamed_beq_iff.1 hsame
    exact ⟨hsimilar, ρ, hρ, hindexes⟩

/-- A goal in which a variable comes back inside of a functor. -/
def echoing : Triple :=
  ⟨.var ⟨"x", 4⟩, .uri "p", .functor "f" [.var ⟨"y", 2⟩, .any, .var ⟨"x", 4⟩]⟩

def resounding : Triple :=
  ⟨.var ⟨"a", 0⟩, .uri "p", .functor "f" [.var ⟨"b", 7⟩, .any, .var ⟨"a", 0⟩]⟩

def echo : Triple :=
  ⟨.uri "s", .uri "p", .functor "f" [.blank 3, .uri "q", .uri "s"]⟩

/-- Five slots are enough for the goal, and two for its shape. -/
theorem shape_decides_variance_echoing :
    (echo.isGround = true ∧ ∀ i ∈ echoing.indexes, i < 5) ∧
      (∃ ρ : Nat → Nat, Function.Injective ρ ∧
        ((echoing.reindexed ρ).unnamed == resounding.unnamed) = true) ∧
      ((Bindings.empty 2).unifyTriple echoing.shape echo).1 = true := by
  have hground : echo.isGround = true := by decide
  have hslots : ∀ i ∈ echoing.indexes, i < 5 := by decide
  obtain ⟨hvariance, -, -, hmatch⟩ := shape_decides_variance echoing resounding
  refine ⟨⟨hground, hslots⟩, hvariance.1 (by decide), ?_⟩
  exact (hmatch echo 5 hground hslots).1 (by decide)

end Triple

end Entailment
