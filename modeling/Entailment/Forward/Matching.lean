import Entailment.Forward.Engine

/-!
# Matching

A triple that comes into view activates the patterns that it matches.  At each of
them it extends the tokens one level up that agree with it, and every new token is
extended in turn by what is visible, level by level, until it is complete and goes on
the agenda.
-/

namespace Entailment

/-- A token that is still to be stored. -/
structure PartialMatch where
  parent : Option TokenId
  triple : Triple
  bindings : Bindings

namespace Engine

variable {γ : Type}

/-- The tokens to be made of a triple at one level, from those one level up that
agree with it. -/
def joins (e : Engine γ) (c : CompiledRule) (s : Subscriber) (pattern t : Triple) :
    List PartialMatch :=
  match (Bindings.empty c.rule.numVars).matching? pattern t with
  | none => []
  | some alone =>
    match s.level with
    | 0 => [⟨none, t, alone⟩]
    | level + 1 =>
      let memory := e.memory s.rule
      (memory.joining level (c.joinKey s.level alone)).filterMap fun id => do
        let token ← memory.token? id
        let bindings ← token.bindings.matching? pattern t
        return ⟨some id, t, bindings⟩

end Engine

namespace PartialMatch

/-- The extensions of a stored match by facts that match the next pattern. -/
def extensions (m : PartialMatch) (id : TokenId) (next : Triple) (facts : List Triple) :
    List PartialMatch :=
  facts.filterMap fun fact =>
    (m.bindings.matching? next fact).map fun bindings => ⟨some id, fact, bindings⟩

end PartialMatch

namespace Work

variable {γ : Type}

/-- Stores a match as a token of its own number, unless it is stored already. -/
def store (c : CompiledRule) (s : Subscriber) (m : PartialMatch) : Work γ (Option TokenId) := do
  let e ← get
  let id := e.nextToken
  let token : Token :=
    { parent := m.parent
      triple := m.triple
      level := s.level
      bindings := m.bindings
      key := c.joinKey (s.level + 1) m.bindings }
  match (e.memory s.rule).insert id token with
  | none => return none
  | some memory =>
    set { e.setMemory s.rule memory with nextToken := id + 1 }
    return some id

/-- Stores a match of the last level and puts it on the agenda. -/
def complete (c : CompiledRule) (s : Subscriber) (m : PartialMatch) : Work γ Unit := do
  match ← store c s m with
  | none => return
  | some id => modify fun e => e.schedule ⟨s.rule, id⟩

variable [Graph γ]

/-- Stores a match, and if it is new finds its extensions by the next pattern. -/
def extend (c : CompiledRule) (s : Subscriber) (next : Triple) (m : PartialMatch) :
    Work γ (List PartialMatch) := do
  match ← store c s m with
  | none => return []
  | some id =>
    let pattern := TriplePattern.ofTriple (m.bindings.partialInstantiate next)
    let facts ← access ((← get).view.find pattern)
    return m.extensions id next facts

/-- Stores the matches of one level, and level by level those that extend them by the
patterns that follow. -/
def grow (c : CompiledRule) (rule : Nat) :
    (level : Nat) → (following : List Triple) → List PartialMatch → Work γ Unit
  | level, [], found => found.forM (complete c ⟨rule, level⟩)
  | level, next :: following, found => do
    let extended ← found.mapM (extend c ⟨rule, level⟩ next)
    grow c rule (level + 1) following extended.flatten

/-- Joins a triple at one level of one rule. -/
def activate (t : Triple) (s : Subscriber) : Work γ Unit := do
  let e ← get
  match e.network.rule? s.rule with
  | none => return
  | some c =>
    match (c.patterns.map Prod.snd).drop s.level with
    | [] => return
    | pattern :: following => grow c s.rule s.level following (e.joins c s pattern t)

end Work

end Entailment
