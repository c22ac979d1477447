import Entailment.Term.Node

/-!
# Triples and triple patterns

A triple is a subject, a predicate and an object; a fact is a ground one.  A
pattern fixes some of the positions and leaves the others open.
-/

namespace Entailment

structure Triple where
  subject : Node
  predicate : Node
  object : Node
deriving Inhabited

namespace Triple

def nodes (t : Triple) : List Node := [t.subject, t.predicate, t.object]

def map (f : Node → Node) (t : Triple) : Triple := ⟨f t.subject, f t.predicate, f t.object⟩

def isGround (t : Triple) : Bool :=
  t.subject.isGround && t.predicate.isGround && t.object.isGround

instance : BEq Triple :=
  ⟨fun t u => t.subject == u.subject && t.predicate == u.predicate && t.object == u.object⟩

theorem beq_iff {t u : Triple} : (t == u) = true ↔
    (t.subject == u.subject) = true ∧ (t.predicate == u.predicate) = true ∧
      (t.object == u.object) = true := by
  change (_ && _ && _) = true ↔ _
  simp [and_assoc]

instance : EquivBEq Triple where
  rfl := beq_iff.2 ⟨BEq.rfl, BEq.rfl, BEq.rfl⟩
  symm h :=
    let ⟨s, p, o⟩ := beq_iff.1 h
    beq_iff.2 ⟨BEq.symm s, BEq.symm p, BEq.symm o⟩
  trans h k :=
    let ⟨s, p, o⟩ := beq_iff.1 h
    let ⟨s', p', o'⟩ := beq_iff.1 k
    beq_iff.2 ⟨BEq.trans s s', BEq.trans p p', BEq.trans o o'⟩

def similar (t u : Triple) : Bool :=
  t.subject.similar u.subject && t.predicate.similar u.predicate && t.object.similar u.object

def text (t : Triple) : String :=
  "(" ++ t.subject.text ++ " " ++ t.predicate.text ++ " " ++ t.object.text ++ ")"

def vars (t : Triple) : List Var := t.subject.vars ++ t.predicate.vars ++ t.object.vars

def varBound (t : Triple) : Nat :=
  max t.subject.varBound (max t.predicate.varBound t.object.varBound)

def size (t : Triple) : Nat := t.subject.size + t.predicate.size + t.object.size

def traverse {σ : Type} (onVar : σ → Var → Node × σ) (onAny : σ → Node × σ)
    (st : σ) (t : Triple) : Triple × σ :=
  let (s, st) := t.subject.traverse onVar onAny st
  let (p, st) := t.predicate.traverse onVar onAny st
  let (o, st) := t.object.traverse onVar onAny st
  (⟨s, p, o⟩, st)

end Triple

structure TriplePattern where
  subject : Option Node := none
  predicate : Option Node := none
  object : Option Node := none
deriving Inhabited

namespace TriplePattern

/-- Leaves every position open. -/
def any : TriplePattern := {}

def fixing (n : Node) : Option Node := if n.isGround then some n else none

/-- Fixes the positions at which the triple is ground. -/
def ofTriple (t : Triple) : TriplePattern :=
  ⟨fixing t.subject, fixing t.predicate, fixing t.object⟩

def allows (position : Option Node) (n : Node) : Bool :=
  match position with
  | none => true
  | some fixed => fixed == n

def accepts (p : TriplePattern) (t : Triple) : Bool :=
  allows p.subject t.subject && allows p.predicate t.predicate && allows p.object t.object

def isExact (p : TriplePattern) : Bool :=
  p.subject.isSome && p.predicate.isSome && p.object.isSome

def isWildcard (p : TriplePattern) : Bool :=
  p.subject.isNone && p.predicate.isNone && p.object.isNone

instance : BEq TriplePattern :=
  ⟨fun p q => p.subject == q.subject && p.predicate == q.predicate && p.object == q.object⟩

end TriplePattern

end Entailment
