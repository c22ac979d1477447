import Entailment.Proofs.Backward.Head
import Entailment.Proofs.Matching.Determinacy
import Entailment.Proofs.Matching.Filling

/-!
# The most general unifier

A goal and the head of a rule unify if and only if ground assignments of their own make
them equal.  The unifier then says no more and no less than all these assignments have in
common: the value of a variable of the goal, the value of a slot of the head, which slots
of the head are equal, and which assignments of the head go with one of the goal.
Variables of the two sides have slots in one environment, so that an assignment of the
slots is one of the head and one of the goal joined.
-/

namespace Entailment

/-- The first assignment on the slots below the given one, and the second from there on. -/
def Assignment.join (size : Nat) (τ σ : Assignment) : Assignment := fun i =>
  if i < size then τ i else σ (i - size)

namespace Assignment

variable {σ τ : Assignment} {size i : Nat}

theorem join_of_lt (h : i < size) : join size τ σ i = τ i := if_pos h

theorem join_add (size : Nat) (τ σ : Assignment) : (fun i => join size τ σ (i + size)) = σ := by
  funext i
  simp [join]

theorem Ground.join (hτ : τ.Ground) (hσ : σ.Ground) (size : Nat) :
    (Assignment.join size τ σ).Ground := by
  intro i
  unfold Assignment.join
  split
  · exact hτ i
  · exact hσ (i - size)

end Assignment

namespace Node

variable {c : Assignment} {m n : Node}

theorem under_shift (offset : Nat) (hn : n.Shallow) :
    (n.shift offset).under c = n.under fun i => c (i + offset) := by
  rcases hn.cases with rfl | ⟨v, rfl⟩ | hsimple
  · rfl
  · rfl
  · rw [shift_of_ground offset hsimple.ground, under_of_ground hsimple.ground,
      under_of_ground hsimple.ground]

theorem isAny_shift (offset : Nat) (n : Node) : (n.shift offset).isAny = n.isAny := by
  cases n <;> rfl

theorem meets_shift_iff (offset : Nat) (hm : m.Shallow) (hn : n.Shallow)
    (hm' : m.noWildcard = true) (hn' : n.noWildcard = true) :
    m.Meets c (n.shift offset) ↔
      (m.filled c == n.filled fun i => c (i + offset)) = true := by
  rw [meets_iff, isAny_shift, isAny_of_noWildcard hm', isAny_of_noWildcard hn',
    under_shift offset hn, hm.filled_eq, hn.filled_eq]
  simp

end Node

/-- Ground assignments of their own make the goal and the head equal. -/
structure Unifies (goal head : Triple) (σ τ : Assignment) : Prop where
  goalGround : σ.Ground
  headGround : τ.Ground
  equal : (head.filled τ == goal.filled σ) = true

namespace Triple

variable {goal head : Triple} {headSize : Nat}

theorem meets_shifted_iff (hgoal : goal.Shallow) (hhead : head.Shallow)
    (hgoal' : goal.NoWildcard) (hhead' : head.NoWildcard) (c : Assignment) :
    head.Meets c (goal.shifted headSize) ↔
      (head.filled c == goal.filled fun i => c (i + headSize)) = true := by
  obtain ⟨hgs, hgp, hgo⟩ := shallow_iff.1 hgoal
  obtain ⟨hhs, hhp, hho⟩ := shallow_iff.1 hhead
  obtain ⟨hgs', hgp', hgo'⟩ := noWildcard_iff.1 hgoal'
  obtain ⟨hhs', hhp', hho'⟩ := noWildcard_iff.1 hhead'
  have hsubject := Node.meets_shift_iff (c := c) headSize hhs hgs hhs' hgs'
  have hpredicate := Node.meets_shift_iff (c := c) headSize hhp hgp hhp' hgp'
  have hobject := Node.meets_shift_iff (c := c) headSize hho hgo hho' hgo'
  rw [beq_iff]
  exact ⟨fun h => ⟨hsubject.1 h.subject, hpredicate.1 h.predicate, hobject.1 h.object⟩,
    fun h => ⟨hsubject.2 h.1, hpredicate.2 h.2.1, hobject.2 h.2.2⟩⟩

end Triple

/-- The value that all the nodes have in common, if they do. -/
def IsCommonValue (S : Set Node) : Option Node → Prop
  | some c => ∀ n ∈ S, (n == c) = true
  | none => ∃ m ∈ S, ∃ n ∈ S, (m == n) = false

theorem Bindings.Chained.isCommonValue_resolve {b : Bindings} (hb : b.Chained) {v : Var}
    (hv : v.index < b.length) :
    IsCommonValue {n | ∃ c : Assignment, c.Ground ∧ b.Allows c ∧ c v.index = n}
      (b.resolve (.var v)) := by
  cases hvalue : b.resolve (.var v) with
  | some m =>
      rintro n ⟨c, _, hc, rfl⟩
      exact hb.resolve_of_allows hc hvalue
  | none =>
      obtain ⟨c, hground, hc⟩ := hb.exists_allows
      have hunforced : ¬ ∀ σ : Assignment, σ.Ground → b.Allows σ →
          (σ v.index == c v.index) = true := by
        rw [← hb.resolve_iff_forced hv, hvalue]
        simp
      push Not at hunforced
      obtain ⟨σ, hσground, hσ, hne⟩ := hunforced
      exact ⟨_, ⟨σ, hσground, hσ, rfl⟩, _, ⟨c, hground, hc, rfl⟩, by simpa using hne⟩

namespace Unifier

variable {goal head : Triple} {headSize : Nat}

/-- The unifier says what all the ground assignments that make goal and head equal have
in common. -/
structure MostGeneral (goal head : Triple) (u : Unifier) : Prop where
  goalValue : ∀ v ∈ goal.vars,
    IsCommonValue {n | ∃ σ τ, Unifies goal head σ τ ∧ σ v.index = n} (u.goalValue (.var v))
  headValue_iff : ∀ i < u.headSize, ∀ c : Node,
    ((∃ m, u.headBindings.value i = some m ∧ (m == c) = true) ↔
      ∀ σ τ, Unifies goal head σ τ → (τ i == c) = true)
  sameSlot_iff : ∀ i j k l : Nat, u.headBindings.deref i = some (.unbound k) →
    u.headBindings.deref j = some (.unbound l) →
      (k = l ↔ ∀ σ τ, Unifies goal head σ τ → (τ i == τ j) = true)
  allows_iff : ∀ τ : Assignment, τ.Ground →
    (u.headBindings.Allows τ ↔ ∃ σ, Unifies goal head σ τ)

/-- The environment of both sides allows the pairs of assignments that unify, joined. -/
structure Represents (goal head : Triple) (u : Unifier) : Prop where
  chained : u.bindings.Chained
  length_eq : u.bindings.length = u.headSize + goal.varBound
  allows_join : ∀ σ τ, Unifies goal head σ τ → u.bindings.Allows (.join u.headSize τ σ)
  unifies : ∀ c : Assignment, c.Ground → u.bindings.Allows c →
    Unifies goal head (fun i => c (i + u.headSize)) c

namespace Represents

variable {u : Unifier} (h : u.Represents goal head)
include h

theorem le_length : u.headSize ≤ u.bindings.length := by
  rw [h.length_eq]
  exact Nat.le_add_right _ _

theorem exists_unifies : ∃ σ τ, Unifies goal head σ τ := by
  obtain ⟨c, hground, hc⟩ := h.chained.exists_allows
  exact ⟨_, _, h.unifies c hground hc⟩

theorem goalValue {v : Var} (hv : v ∈ goal.vars) :
    IsCommonValue {n | ∃ σ τ, Unifies goal head σ τ ∧ σ v.index = n}
      (u.goalValue (.var v)) := by
  have hbound : v.index < goal.varBound := Triple.lt_varBound (List.mem_map_of_mem hv)
  have hslot : v.index + u.headSize < u.bindings.length := by
    rw [h.length_eq]
    omega
  have hvalues : {n | ∃ σ τ, Unifies goal head σ τ ∧ σ v.index = n} =
      {n | ∃ c : Assignment, c.Ground ∧ u.bindings.Allows c ∧ c (v.index + u.headSize) = n} := by
    ext n
    constructor
    · rintro ⟨σ, τ, hunifies, rfl⟩
      have hground := hunifies.headGround.join hunifies.goalGround u.headSize
      refine ⟨.join u.headSize τ σ, hground, h.allows_join σ τ hunifies, ?_⟩
      exact congrFun (Assignment.join_add u.headSize τ σ) v.index
    · rintro ⟨c, hground, hc, rfl⟩
      exact ⟨_, c, h.unifies c hground hc, rfl⟩
  rw [hvalues]
  exact h.chained.isCommonValue_resolve (v := ⟨v.name, v.index + u.headSize⟩) hslot

/-- The head's environment allows the head's part of the solutions. -/
theorem allows_iff (hhead : head.NoWildcard) (hslots : ∀ i ∈ head.indexes, i < u.headSize)
    {τ : Assignment} (hτ : τ.Ground) :
    u.headBindings.Allows τ ↔ ∃ σ, Unifies goal head σ τ := by
  constructor
  · intro hallows
    have hextend : (u.extend τ).Ground := h.chained.ground_settle fun i => hτ _
    have hunifies := h.unifies _ hextend (h.chained.allows_settle _)
    have hsame : ∀ i ∈ head.indexes, (τ i == u.extend τ i) = true := fun i hi =>
      extend_eq h.chained h.le_length hallows (hslots i hi)
    exact ⟨_, hunifies.goalGround, hτ,
      BEq.trans (Triple.filled_congr hhead hsame) hunifies.equal⟩
  · rintro ⟨σ, hunifies⟩
    rw [allows_headBindings_iff h.chained h.le_length]
    refine ⟨_, h.allows_join σ τ hunifies, fun i hi => ?_⟩
    rw [Assignment.join_of_lt hi]
    exact BEq.rfl

theorem mostGeneral (hhead : head.NoWildcard) (hslots : ∀ i ∈ head.indexes, i < u.headSize) :
    u.MostGeneral goal head := by
  have hchained := chained_headBindings h.chained h.le_length
  have hallows : ∀ τ : Assignment, τ.Ground →
      (u.headBindings.Allows τ ↔ ∃ σ, Unifies goal head σ τ) := fun τ hτ =>
    h.allows_iff hhead hslots hτ
  -- What all the allowed assignments of the head have, all the solutions have.
  have hforced : ∀ P : Assignment → Prop,
      (∀ τ : Assignment, τ.Ground → u.headBindings.Allows τ → P τ) ↔
        ∀ σ τ, Unifies goal head σ τ → P τ := by
    intro P
    constructor
    · intro hall σ τ hunifies
      exact hall τ hunifies.headGround ((hallows τ hunifies.headGround).2 ⟨σ, hunifies⟩)
    · intro hall τ hτ hτallows
      obtain ⟨σ, hunifies⟩ := (hallows τ hτ).1 hτallows
      exact hall σ τ hunifies
  constructor
  · intro v hv
    exact h.goalValue hv
  · intro i hi c
    have hlength : i < u.headBindings.length := by rwa [length_headBindings]
    rw [← hforced fun τ => (τ i == c) = true]
    exact hchained.resolve_iff_forced (v := ⟨"", i⟩) hlength c
  · intro i j k l hi hj
    rw [← hforced fun τ => (τ i == τ j) = true]
    exact hchained.same_end_iff_forced hi hj
  · exact hallows

end Represents

/-- What unification comes to, in terms of the assignments that make goal and head equal. -/
theorem ofGoal_represents (hgoal : goal.Shallow) (hhead : head.Shallow)
    (hgoal' : goal.NoWildcard) (hhead' : head.NoWildcard)
    (hslots : ∀ i ∈ head.indexes, i < headSize) :
    (ofGoal goal head headSize = none ∧ ∀ σ τ, ¬ Unifies goal head σ τ) ∨
      ∃ u, ofGoal goal head headSize = some u ∧ u.headSize = headSize ∧
        u.Represents goal head := by
  have hmeets : ∀ c : Assignment, head.Meets c (goal.shifted headSize) ↔
      (head.filled c == goal.filled fun i => c (i + headSize)) = true :=
    Triple.meets_shifted_iff hgoal hhead hgoal' hhead'
  have hjoin : ∀ σ τ, Unifies goal head σ τ →
      head.Meets (.join headSize τ σ) (goal.shifted headSize) := by
    intro σ τ hunifies
    have hsame : ∀ i ∈ head.indexes, (Assignment.join headSize τ σ i == τ i) = true := by
      intro i hi
      rw [Assignment.join_of_lt (hslots i hi)]
      exact BEq.rfl
    rw [hmeets, Assignment.join_add]
    exact BEq.trans (Triple.filled_congr hhead' hsame) hunifies.equal
  rcases ofGoal_cases hgoal hhead hslots with ⟨hnone, hnot⟩ | ⟨b, hsome, hb, hlength, hallows⟩
  · exact Or.inl ⟨hnone, fun σ τ hunifies => hnot _ (hjoin σ τ hunifies)⟩
  · refine Or.inr ⟨⟨b, headSize⟩, hsome, rfl, hb, hlength, ?_, ?_⟩
    · intro σ τ hunifies
      exact (hallows _).2 (hjoin σ τ hunifies)
    · intro c hground hc
      exact ⟨fun i => hground (i + headSize), hground, (hmeets c).1 ((hallows c).1 hc)⟩

/-- A goal and a head unify if and only if some ground assignments of their own make them
equal, and the unifier is what all of these have in common. -/
theorem ofGoal_mostGeneral (goal head : Triple) (headSize : Nat) (hgoal : goal.Shallow)
    (hhead : head.Shallow) (hgoal' : goal.NoWildcard) (hhead' : head.NoWildcard)
    (hslots : ∀ i ∈ head.indexes, i < headSize) :
    ((ofGoal goal head headSize).isSome = true ↔ ∃ σ τ, Unifies goal head σ τ) ∧
      ∀ u, ofGoal goal head headSize = some u → u.headSize = headSize ∧
        u.MostGeneral goal head := by
  rcases ofGoal_represents hgoal hhead hgoal' hhead' hslots with
    ⟨hnone, hnot⟩ | ⟨u, hsome, hsize, hrepresents⟩
  · rw [hnone]
    refine ⟨⟨fun h => ?_, fun ⟨σ, τ, h⟩ => absurd h (hnot σ τ)⟩, fun u hu => ?_⟩
    · cases h
    · cases hu
  · rw [hsome]
    refine ⟨⟨fun _ => hrepresents.exists_unifies, fun _ => rfl⟩, fun u' hu => ?_⟩
    cases hu
    have hslots' : ∀ i ∈ head.indexes, i < u.headSize := by
      rw [hsize]
      exact hslots
    exact ⟨hsize, hrepresents.mostGeneral hhead' hslots'⟩

/-- A goal that asks for one node in two positions. -/
def mirroring : Triple := ⟨.var ⟨"x", 0⟩, .var ⟨"y", 1⟩, .var ⟨"x", 0⟩⟩

def relating : Triple := ⟨.var ⟨"a", 0⟩, .uri "p", .var ⟨"b", 1⟩⟩

/-- Two variables of the head become equal over one of the goal, and stay without a value. -/
theorem ofGoal_mostGeneral_mirroring :
    (mirroring.NoWildcard ∧ relating.NoWildcard ∧ ∀ i ∈ relating.indexes, i < 2) ∧
      ∃ u, ofGoal mirroring relating 2 = some u ∧ u.MostGeneral mirroring relating ∧
        u.goalValue (.var ⟨"y", 1⟩) = some (.uri "p") ∧ u.goalValue (.var ⟨"x", 0⟩) = none ∧
        u.headBindings.slot? 1 = some (.aliasOf 0) := by
  have hmirroring : mirroring.Shallow := fun n hn =>
    Node.shallow_of_flat ((by decide : ∀ n ∈ mirroring.nodes, n.isFunctor = false) n hn)
  have hrelating : relating.Shallow := fun n hn =>
    Node.shallow_of_flat ((by decide : ∀ n ∈ relating.nodes, n.isFunctor = false) n hn)
  have hclosed : mirroring.NoWildcard ∧ relating.NoWildcard := by
    unfold Triple.NoWildcard
    decide
  have hslots : ∀ i ∈ relating.indexes, i < 2 := by decide
  obtain ⟨-, hgeneral⟩ := ofGoal_mostGeneral mirroring relating 2 hmirroring hrelating
    hclosed.1 hclosed.2 hslots
  refine ⟨⟨hclosed.1, hclosed.2, hslots⟩, _, rfl, (hgeneral _ rfl).2, ?_⟩
  exact ⟨rfl, rfl, rfl⟩

end Unifier

end Entailment
