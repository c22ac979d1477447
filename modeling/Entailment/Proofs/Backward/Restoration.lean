import Entailment.Proofs.Backward.Head
import Entailment.Proofs.Matching.Determinacy
import Entailment.Proofs.Matching.Filling
import Entailment.Proofs.Rule.Instance

/-!
# Instantiating a head after unification with a fact

A goal without variables unifies with a head just where it is the head filled in, and the
head's environment then restores it: every variable of the head has a value, inside
functors and outside, so that instantiating the head gives the goal back and needs no
fresh blank node.  Where functors do not nest, what the head's variables have taken from
the goal is not nested either, and resolution does not refuse it.
-/

namespace Entailment

/-! ## Completing a pattern whose variables have values -/

namespace Bindings

variable {b : Bindings} {σ : Assignment}

mutual
theorem traverse_of_values {n : Node} (hn : n.noWildcard = true)
    (h : ∀ v ∈ n.vars, b.resolve (.var v) = some (σ v.index)) (supply : BlankSupply) :
    n.traverse complete freshBlank (b, supply) = (n.filled σ, b, supply) := by
  match n with
  | .var v =>
      have hv := h v (by simp [Node.vars])
      simp only [Node.traverse, complete, hv, Node.filled, Node.subst]
  | .any => cases hn
  | .functor f args =>
      have hargs : ∀ v ∈ Node.varsAll args, b.resolve (.var v) = some (σ v.index) := h
      simp only [Node.traverse, Node.filled, Node.subst, traverseAll_of_values hn hargs supply]
  | .uri _ | .literal _ | .blank _ => rfl

theorem traverseAll_of_values {ns : List Node} (hns : Node.noWildcards ns = true)
    (h : ∀ v ∈ Node.varsAll ns, b.resolve (.var v) = some (σ v.index)) (supply : BlankSupply) :
    Node.traverseAll complete freshBlank (b, supply) ns = (Node.allFilled σ ns, b, supply) := by
  match ns with
  | [] => rfl
  | n :: rest =>
      rw [Node.noWildcards, Bool.and_eq_true] at hns
      have hhead : ∀ v ∈ n.vars, b.resolve (.var v) = some (σ v.index) := fun v hv =>
        h v (by simp [Node.varsAll, hv])
      have hrest : ∀ v ∈ Node.varsAll rest, b.resolve (.var v) = some (σ v.index) := fun v hv =>
        h v (by simp [Node.varsAll, hv])
      simp only [Node.traverseAll, Node.allFilled, Node.substAll,
        traverse_of_values hns.1 hhead supply, traverseAll_of_values hns.2 hrest supply]
end

/-- A pattern whose variables all have values is instantiated by filling it in. -/
theorem instantiate_of_values {p : Triple} (hp : p.NoWildcard)
    (h : ∀ v ∈ p.vars, b.resolve (.var v) = some (σ v.index)) (supply : BlankSupply) :
    b.instantiate supply p = (p.filled σ, b, supply) := by
  obtain ⟨hs, hpred, ho⟩ := Triple.noWildcard_iff.1 hp
  have hsubject := traverse_of_values hs
    (fun v hv => h v (by simp [Triple.vars, hv])) supply
  have hpredicate := traverse_of_values hpred
    (fun v hv => h v (by simp [Triple.vars, hv])) supply
  have hobject := traverse_of_values ho
    (fun v hv => h v (by simp [Triple.vars, hv])) supply
  simp only [instantiate, Triple.traverse, hsubject, hpredicate, hobject]
  rfl

end Bindings

/-! ## Facts as goals -/

namespace Unifier

variable {goal head : Triple} {headSize : Nat}

theorem varBound_of_ground (hgoal : goal.isGround = true) : goal.varBound = 0 := by
  obtain ⟨hs, hp, ho⟩ := Triple.isGround_iff.1 hgoal
  simp [Triple.varBound, Node.varBound, Node.vars_of_ground hs, Node.vars_of_ground hp,
    Node.vars_of_ground ho]

theorem shifted_of_ground (hgoal : goal.isGround = true) : goal.shifted headSize = goal := by
  obtain ⟨hs, hp, ho⟩ := Triple.isGround_iff.1 hgoal
  simp [Triple.shifted, Triple.map, Node.shift_of_ground headSize hs,
    Node.shift_of_ground headSize hp, Node.shift_of_ground headSize ho]

/-- To unify a head with a fact is to match it. -/
theorem ofGoal_of_ground (hgoal : goal.isGround = true) : ofGoal goal head headSize =
    ((Bindings.empty headSize).matching? head goal).map fun b => ⟨b, headSize⟩ := by
  have hshifted : goal.map (Node.shift headSize) = goal := shifted_of_ground hgoal
  simp only [ofGoal, hshifted, varBound_of_ground hgoal, Nat.add_zero, Bindings.matching?]
  split <;> simp_all

/-- What a slot of the whole environment holds is the value of the head's variable. -/
theorem resolve_headBindings {u : Unifier} {v : Var} (hb : u.bindings.Ground)
    (hv : v.index < u.headSize) {n : Node} (hheld : u.bindings.held? v.index = some n)
    (hflat : n.isNested = false) : u.headBindings.resolve (.var v) = some n := by
  have hvalue : u.bindings.value v.index = some n := by
    simp [hb.value_eq, hheld, hflat]
  have hslot : u.headBindings.slot? v.index = some (.ground n) := by
    simp [slot?_headBindings, hv, headSlot, hb.deref_eq, hheld, hvalue]
  rw [Bindings.resolve_var, (Bindings.Leads.ground hslot).deref_eq]
  simp [Bindings.resolveTerm_of_ground (hb.isGround hheld), hflat]

end Unifier

namespace Bindings

variable {b : Bindings}

/-- The assignment that the slots give, with some ground node where nothing is held. -/
def filling (b : Bindings) : Assignment := fun i => (b.held? i).getD (.uri "")

theorem admits_filling (b : Bindings) : b.Admits b.filling := by
  intro i n h
  rw [filling, h]
  exact BEq.rfl

theorem Ground.ground_filling (hb : b.Ground) : b.filling.Ground := by
  intro i
  unfold filling
  cases h : b.held? i with
  | none => rfl
  | some n => exact hb.isGround h

variable {goal head : Triple} {headSize : Nat}

theorem unifyHead_of_ground (hgoal : goal.isGround = true) : unifyHead goal head headSize =
    ((empty headSize).matching? head goal).map fun b => Unifier.headBindings ⟨b, headSize⟩ := by
  simp [unifyHead, Unifier.ofGoal_of_ground hgoal, Option.map_map, Function.comp_def]

/-- Without bindings, a fact matches a head that can be filled in to be the fact. -/
theorem exists_matching?_iff_filled (hgoal : goal.isGround = true) (hhead : head.NoWildcard)
    (hslots : ∀ i ∈ head.indexes, i < headSize) :
    (∃ b, (empty headSize).matching? head goal = some b) ↔
      ∃ σ : Assignment, σ.Ground ∧ (head.filled σ == goal) = true := by
  have hempty := ground_empty headSize
  constructor
  · rintro ⟨b, hb⟩
    have hmatched := hempty.matched hgoal hb
    have hfits : head.Fits b.filling goal := ((hmatched.admits_iff _).1 b.admits_filling).2
    exact ⟨b.filling, hmatched.ground.ground_filling, (Triple.fits_iff_filled hhead).1 hfits⟩
  · rintro ⟨σ, _, hfilled⟩
    have hadmits : (empty headSize).Admits σ := by
      intro i n hi
      rw [held?_empty] at hi
      cases hi
    apply hempty.exists_matching? hgoal _ hadmits ((Triple.fits_iff_filled hhead).2 hfilled)
    intro i hi
    rw [length_empty]
    exact hslots i hi

/-- What is matched to a fact without nested functors is what the head's variables resolve to. -/
theorem Matched.resolve_headBindings (h : (empty headSize).Matched head goal b)
    (hflat : ∀ n ∈ goal.nodes, n.isNested = false) (hslots : ∀ i ∈ head.indexes, i < headSize)
    {v : Var} (hv : v ∈ head.vars) :
    (Unifier.headBindings ⟨b, headSize⟩).resolve (.var v) = some (b.filling v.index) := by
  have hindex : v.index ∈ head.indexes := List.mem_map_of_mem hv
  have hfits : head.Fits b.filling goal := ((h.admits_iff _).1 b.admits_filling).2
  obtain ⟨n, hn⟩ := h.covers v.index hindex
  have hvalue : b.filling v.index = n := by simp [filling, hn]
  have hnested : n.isNested = false :=
    hvalue ▸ vocabulary_not_nested.of_triple_fits hfits hflat v.index hindex
  rw [hvalue]
  exact Unifier.resolve_headBindings h.ground (hslots v.index hindex) hn hnested

/-- A fact without nested functors unifies with a head if and only if the head can be
filled in to be the fact, and instantiating the head gives the fact back then, without a
fresh blank node. -/
theorem unifyHead_restores (goal head : Triple) (headSize : Nat) (hgoal : goal.isGround = true)
    (hflat : ∀ n ∈ goal.nodes, n.isNested = false) (hhead : head.NoWildcard)
    (hslots : ∀ i ∈ head.indexes, i < headSize) :
    ((unifyHead goal head headSize).isSome = true ↔
        ∃ σ : Assignment, σ.Ground ∧ (head.filled σ == goal) = true) ∧
      ∀ b, unifyHead goal head headSize = some b → ∀ supply : BlankSupply,
        ((b.instantiate supply head).1 == goal) = true ∧
          (b.instantiate supply head).2 = (b, supply) := by
  rw [unifyHead_of_ground hgoal]
  constructor
  · rw [Option.isSome_map, Option.isSome_iff_exists]
    exact exists_matching?_iff_filled hgoal hhead hslots
  · intro b' hb' supply
    obtain ⟨b, hb, rfl⟩ := Option.map_eq_some_iff.1 hb'
    have hmatched := (ground_empty headSize).matched hgoal hb
    have hfits : head.Fits b.filling goal := ((hmatched.admits_iff _).1 b.admits_filling).2
    have hvalues : ∀ v ∈ head.vars,
        (Unifier.headBindings ⟨b, headSize⟩).resolve (.var v) = some (b.filling v.index) :=
      fun v hv => hmatched.resolve_headBindings hflat hslots hv
    rw [instantiate_of_values hhead hvalues supply]
    exact ⟨(Triple.fits_iff_filled hhead).1 hfits, rfl⟩

/-- A head in which a variable stands inside a functor and outside. -/
def labelling : Triple :=
  ⟨.var ⟨"x", 0⟩, .uri "p", .functor "f" [.var ⟨"x", 0⟩, .var ⟨"y", 1⟩]⟩

def labelled : Triple := ⟨.uri "a", .uri "p", .functor "f" [.uri "a", .string "b"]⟩

theorem unifyHead_restores_labelled :
    (labelled.isGround = true ∧ (∀ n ∈ labelled.nodes, n.isNested = false) ∧
      labelling.NoWildcard ∧ ∀ i ∈ labelling.indexes, i < 2) ∧
      ∃ b, unifyHead labelled labelling 2 = some b ∧
        b.values = [some (.uri "a"), some (.string "b")] ∧
        ∀ supply : BlankSupply, ((b.instantiate supply labelling).1 == labelled) = true ∧
          (b.instantiate supply labelling).2 = (b, supply) := by
  have hflat : ∀ n ∈ labelled.nodes, n.isNested = false := by decide
  have hhead : labelling.NoWildcard := by
    unfold Triple.NoWildcard
    decide
  have hslots : ∀ i ∈ labelling.indexes, i < 2 := by decide
  obtain ⟨-, hrestores⟩ := unifyHead_restores labelled labelling 2 rfl hflat hhead hslots
  exact ⟨⟨rfl, hflat, hhead, hslots⟩, _, rfl, rfl, hrestores _ rfl⟩

end Bindings

end Entailment
