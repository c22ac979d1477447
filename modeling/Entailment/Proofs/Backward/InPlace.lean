import Entailment.Binding.Trail
import Entailment.Proofs.Backward.Depth
import Entailment.Proofs.Backward.Pertinence
import Entailment.Proofs.Matching.Ending

/-!
# Searching in place

A search can work on one trail of environments instead of handing environments on: it
saves the current one before it tries a fact or asks a call, and goes back to it
afterwards.  A watch looks at each solution of a body and may object to what it leaves
behind.  Where a unification has no end there is no result to go on with, and the search
fails with a failure of the watch's choice.
-/

namespace Entailment

/-! ## Unification with a goal, where it ends -/

namespace Unifier

variable {goal head : Triple} {headSize : Nat} {found : Option Unifier}

/-- The unifier of a goal with a head or that there is none, where unification ends. -/
def ofGoal? (goal head : Triple) (headSize : Nat) : Option (Option Unifier) :=
  ((Bindings.empty (headSize + goal.varBound)).unifyTriple? head
    (goal.map (Node.shift headSize))).map fun (held, bindings) =>
      if held then some ⟨bindings, headSize⟩ else none

theorem ofGoal_eq (goal head : Triple) (headSize : Nat) : ofGoal goal head headSize =
    if ((Bindings.empty (headSize + goal.varBound)).unifyTriple head
        (goal.map (Node.shift headSize))).1 then
      some ⟨((Bindings.empty (headSize + goal.varBound)).unifyTriple head
        (goal.map (Node.shift headSize))).2, headSize⟩
    else none := by
  unfold ofGoal
  simp only
  cases (Bindings.empty (headSize + goal.varBound)).unifyTriple head
      (goal.map (Node.shift headSize)) with
  | mk held bindings => cases held <;> rfl

theorem ofGoal_of_ofGoal? (h : ofGoal? goal head headSize = some found) :
    ofGoal goal head headSize = found := by
  obtain ⟨result, hresult, rfl⟩ := Option.map_eq_some_iff.1 h
  rw [ofGoal_eq, Bindings.unifyTriple_of_unifyTriple? hresult]

/-- Unification with a ground head ends. -/
theorem ofGoal?_of_ground (hhead : head.isGround = true) :
    ofGoal? goal head headSize = some (ofGoal goal head headSize) := by
  rw [ofGoal?, (Bindings.ground_empty _).solid.unifyTriple?_eq (.inl hhead), ofGoal_eq]
  rfl

/-- Unification ends where functors have no variables. -/
theorem ofGoal?_of_shallow (hgoal : goal.Shallow) (hhead : head.Shallow) :
    ofGoal? goal head headSize = some (ofGoal goal head headSize) := by
  have hshifted : (goal.map (Node.shift headSize)).Shallow := by
    obtain ⟨hs, hp, ho⟩ := Triple.shallow_iff.1 hgoal
    exact Triple.shallow_iff.2 ⟨Node.shallow_shift headSize hs, Node.shallow_shift headSize hp,
      Node.shallow_shift headSize ho⟩
  rw [ofGoal?, (Bindings.ground_empty _).solid.unifyTriple?_eq_of_shallow
    (Bindings.speaks_empty _) hhead hshifted, ofGoal_eq]
  rfl

theorem solid_headBindings {u : Unifier} (hu : u.bindings.Solid) : u.headBindings.Solid := by
  intro i n hi
  rw [slot?_headBindings] at hi
  split at hi
  · have hslot := Option.some.inj hi
    unfold headSlot at hslot
    split at hslot
    · split at hslot
      · rename_i k hk
        cases hslot
        have hground : n.isGround = true := hu.isGround_of_resolve hk
        cases n with
        | var v => cases hground
        | any => cases hground
        | _ => exact ⟨rfl, rfl⟩
      · cases hslot
    · split at hslot <;> cases hslot
    · cases hslot
  · cases hi

end Unifier

namespace Bindings

variable {b : Bindings}

theorem Solid.shallow_partialNode (hb : b.Solid) {n : Node} (hn : n.Shallow) :
    (b.partialNode n).Shallow := by
  rcases hn.cases with rfl | ⟨v, rfl⟩ | ⟨hground, _⟩
  · trivial
  · change (b.valueOrSelf v).Shallow
    unfold valueOrSelf
    cases hvalue : b.resolve (.var v) with
    | none => trivial
    | some k =>
        have hk : k.Simple := ⟨hb.isGround_of_resolve hvalue, isNested_of_resolve hvalue⟩
        exact hk.shallow
  · rw [partialNode, Node.subst_of_ground hground]
    exact hn

theorem Solid.shallow_partialInstantiate (hb : b.Solid) {p : Triple} (hp : p.Shallow) :
    (b.partialInstantiate p).Shallow := by
  obtain ⟨hs, hpred, ho⟩ := Triple.shallow_iff.1 hp
  exact Triple.shallow_iff.2 ⟨hb.shallow_partialNode hs, hb.shallow_partialNode hpred,
    hb.shallow_partialNode ho⟩

end Bindings

/-- A head that is everywhere the same cannot be compared to the end with a goal whose parts
contain each other. -/
example : (Unifier.ofGoal? ⟨.functor "f" [.var ⟨"x", 0⟩], .var ⟨"x", 0⟩, .var ⟨"x", 0⟩⟩
    ⟨.var ⟨"y", 0⟩, .var ⟨"y", 0⟩, .var ⟨"y", 0⟩⟩ 1).isNone = true := by
  decide +kernel

/-- Whether the fact is an instance of the goal, where their unification ends. -/
def Triple.covers? (goal fact : Triple) : Option Bool :=
  (Unifier.ofGoal? goal fact 0).map Option.isSome

/-! ## Attempts -/

/-- What the solution of a body works on. -/
structure Attempt where
  trail : Trail
  matched : List (Option Triple)
  answers : OrderedSet Triple

/-- What is made of a search in place: the failure that stands for a unification without
end, and a look at each solution of a body, from its beginning to its end, which may
object. -/
structure Watch where
  endless : Failure
  accepts : Attempt → SearchState → Attempt → SearchState → Bool

/-- The watch objects to nothing that is left as it was found. -/
def Watch.Lenient (watch : Watch) : Prop :=
  ∀ a st a' st', a'.trail = a.trail → a'.matched = a.matched → st'.path = st.path →
    watch.accepts a st a' st' = true

namespace Attempt

def save (a : Attempt) : Attempt := { a with trail := a.trail.push }

/-- Goes back to the environment saved last. -/
def goBack (a : Attempt) : Search Attempt :=
  match a.trail.unwind with
  | .ok trail => pure { a with trail }
  | .error cause => throw cause

/-- Unifies in the current environment. -/
def unify (watch : Watch) (pattern fact : Triple) (a : Attempt) : Search (Bool × Attempt) :=
  match a.trail.current.unifyTriple? pattern fact with
  | some (held, current) => pure (held, { a with trail := { a.trail with current } })
  | none => throw watch.endless

/-- The attempt with other answers. -/
def answered (a : Attempt) (answers : OrderedSet Triple) : Attempt := { a with answers }

/-- The attempt with a fact noted at the position, and other answers. -/
def noting (a : Attempt) (position : Nat) (fact : Option Triple) (answers : OrderedSet Triple) :
    Attempt := ⟨a.trail, a.matched.set position fact, answers⟩

/-- No fact is noted for the clause at the position or a later one. -/
def Open (a : Attempt) (position : Nat) : Prop :=
  ∀ i, position ≤ i → ∀ m, a.matched[i]? = some m → m = none

variable {a : Attempt} {position : Nat}

theorem Open.set (h : a.Open position) : a.matched.set position none = a.matched := by
  refine List.ext_getElem? fun i => ?_
  rw [List.getElem?_set]
  split
  · rename_i heq
    subst heq
    split
    · rename_i hlt
      rw [List.getElem?_eq_getElem hlt, h position (Nat.le_refl _) _ (List.getElem?_eq_getElem hlt)]
    · rename_i hge
      rw [List.getElem?_eq_none (Nat.le_of_not_lt hge)]
  · rfl

/-- Whatever is noted for the clause at the position, the later ones are open. -/
theorem Open.next (h : a.Open position) {b : Attempt}
    (hb : ∀ i, position < i → b.matched[i]? = a.matched[i]?) : b.Open (position + 1) := by
  intro i hi m hm
  rw [hb i hi] at hm
  exact h i (Nat.le_of_lt hi) m hm

end Attempt

namespace Solver

variable {γ : Type} [Graph γ]

/-- The solution of a body under a watch, whose objection is a failure. -/
def watched (watch : Watch) (a : Attempt) (work : Search Attempt) : Search Attempt := do
  let before ← get
  let a' ← work
  let after ← get
  if watch.accepts a before a' after then return a' else throw (.invariant .unmatchedUnwind)

/-- Asks a call in the current environment. -/
def askOn (s : Solver) (view : View γ) (rule : Rule) (call : Call) (a : Attempt) :
    Search (Bool × Attempt) := do
  let st ← get
  let (held, after) := s.run view rule call ⟨a.trail.current, a.matched⟩ st.world
  set { st with world := after.world }
  return (held, { a with trail := { a.trail with current := after.bindings } })

/-- What a call leaves in place. -/
theorem askOn_apply (s : Solver) (view : View γ) (rule : Rule) (call : Call) (a : Attempt)
    (st : SearchState) :
    s.askOn view rule call a st =
      .ok ((s.run view rule call ⟨a.trail.current, a.matched⟩ st.world).1,
        ⟨⟨(s.run view rule call ⟨a.trail.current, a.matched⟩ st.world).2.bindings, a.trail.saved⟩,
          a.matched, a.answers⟩)
        { st with world := (s.run view rule call ⟨a.trail.current, a.matched⟩ st.world).2.world } :=
  rfl

/-- Solves the rest of a body in place. -/
def solveBodyOn (watch : Watch) (s : Solver) (view : View γ)
    (prove : Triple → Search (OrderedSet Triple)) (r : GoalRule) :
    (position : Nat) → List Clause → Attempt → Search Attempt
  | _, [], a =>
    let answer := a.trail.current.partialInstantiate r.head
    return if answer.isGround then { a with answers := a.answers.insert answer } else a
  | position, .pattern pattern :: rest, a => do
    let facts ← prove (a.trail.current.partialInstantiate pattern)
    let a ← facts.members.foldlM (fun (a : Attempt) fact => do
      let (held, a) ← a.save.unify watch pattern fact
      let a ←
        if held then
          let a := { a with matched := a.matched.set position (some fact) }
          watched watch a (solveBodyOn watch s view prove r (position + 1) rest a)
        else pure a
      a.goBack) a
    return { a with matched := a.matched.set position none }
  | position, .call call :: rest, a => do
    if s.refuses call then return a
    let (held, a) ← s.askOn view r.rule call a.save
    let a ←
      if held then watched watch a (solveBodyOn watch s view prove r (position + 1) rest a)
      else pure a
    a.goBack

def expandOn (watch : Watch) (s : Solver) (view : View γ)
    (prove : Triple → Search (OrderedSet Triple)) (goal : Triple) (answers : OrderedSet Triple)
    (r : GoalRule) : Search (OrderedSet Triple) :=
  match Unifier.ofGoal? goal r.head r.rule.numVars with
  | none => throw watch.endless
  | some none => return answers
  | some (some u) => do
    let a : Attempt := ⟨⟨u.headBindings, []⟩, List.replicate r.rule.body.length none, answers⟩
    return (← watched watch a (s.solveBodyOn watch view prove r 0 r.rule.body a)).answers

/-- The instances of a goal among facts. -/
def covered (watch : Watch) (goal : Triple) (facts : List Triple) : Search (List Triple) :=
  if facts.all fun fact => (goal.covers? fact).isSome then return facts.filter goal.covers
  else throw watch.endless

/-- The answers to a goal, proved in place. -/
def proveOn (watch : Watch) (s : Solver) (view : View γ) :
    (depth : Nat) → Triple → Search (OrderedSet Triple)
  | 0, _ => throw (.maxDepthExceeded s.maxDepth)
  | depth + 1, goal => do
    let found ←
      match view.find (.ofTriple goal) with
      | .ok found => pure found
      | .error cause => throw (.graph cause)
    let stored := OrderedSet.ofList (← covered watch goal found)
    let shape := goal.shape
    let st ← get
    if st.path.contains shape then
      return stored.insertAll (← covered watch goal (st.answers shape))
    set { st with path := shape :: st.path }
    let answers ← s.rules.foldlM (s.expandOn watch view (proveOn watch s view depth) goal) stored
    modify fun st =>
      { st with
        path := st.path.tail
        table := st.table.alter shape (·.insertAll answers.members) }
    return answers

def repeatOn (watch : Watch) (s : Solver) (view : View γ) (goal : Triple) :
    (rounds : Nat) → Search (OrderedSet Triple)
  | 0 => throw (.maxDepthExceeded s.maxDepth)
  | rounds + 1 => do
    let known := (← get).tabled
    let answers ← s.proveOn watch view (s.maxDepth + 1) goal
    if (← get).tabled = known then return answers
    repeatOn watch s view goal rounds

/-- The search for a goal in place. -/
def solveOn (watch : Watch) (s : Solver) (view : View γ) (goal : Triple) (world : World) :
    Except Failure (List Triple) × World :=
  match s.repeatOn watch view goal.numbered (s.maxDepth + 1) { world } with
  | .ok answers st => (.ok answers.members, st.world)
  | .error cause st => (.error cause, st.world)

end Solver

end Entailment
