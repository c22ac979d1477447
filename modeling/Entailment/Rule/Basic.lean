import Entailment.Builtin.Basic

/-!
# Rules

A rule has a body of patterns and calls, and a head of patterns to assert and calls
to act on.  Its variables are numbered by first occurrence, in the part that is
matched first: the body of a forward rule, the head of a backward one.
-/

namespace Entailment

inductive Clause where
  | pattern (t : Triple)
  | call (c : Call)
deriving Inhabited

namespace Clause

def pattern? : Clause → Option Triple
  | .pattern t => some t
  | .call _ => none

def call? : Clause → Option Call
  | .pattern _ => none
  | .call c => some c

def nodes : Clause → List Node
  | .pattern t => t.nodes
  | .call c => c.args

def text : Clause → String
  | .pattern t => t.text
  | .call c => c.text

def isGround (c : Clause) : Bool := c.nodes.all Node.isGround

/-- Every node of the clause has a value. -/
def isGroundIn (c : Clause) (b : Bindings) : Bool := c.nodes.all fun n => (b.resolve n).isSome

/-- A functor stands inside a functor. -/
def isNested : Clause → Bool
  | .pattern t => t.nodes.any Node.isNested
  | .call c => c.toNode.isNested

def vars : Clause → List Var
  | .pattern t => t.vars
  | .call c => Node.varsAll c.args

instance : BEq Clause where
  beq
    | .pattern t, .pattern u => t == u
    | .call c, .call d => c.toNode == d.toNode
    | _, _ => false

/-- The comparison in which any variable stands for any other. -/
def similar : Clause → Clause → Bool
  | .pattern t, .pattern u => t.similar u
  | .call c, .call d => c.toNode.similar d.toNode
  | _, _ => false

def traverse {σ : Type} (onVar : σ → Var → Node × σ) (onAny : σ → Node × σ)
    (st : σ) : Clause → Clause × σ
  | .pattern t =>
    let (t, st) := t.traverse onVar onAny st
    (.pattern t, st)
  | .call c =>
    let (args, st) := Node.traverseAll onVar onAny st c.args
    (.call { c with args }, st)

end Clause

/-- The clauses of a list by a function with a state, from left to right. -/
def traverseClauses {σ : Type} (onVar : σ → Var → Node × σ) (onAny : σ → Node × σ) :
    σ → List Clause → List Clause × σ
  | st, [] => ([], st)
  | st, c :: rest =>
    let (c, st) := c.traverse onVar onAny st
    let (rest, st) := traverseClauses onVar onAny st rest
    (c :: rest, st)

inductive Direction where
  | forward
  | backward
deriving DecidableEq, Inhabited

namespace Direction

def flip : Direction → Direction
  | .forward => .backward
  | .backward => .forward

end Direction

/-- The names met so far; a name's place is its number. -/
abbrev Numbering := List String

namespace Numbering

def number (names : Numbering) (v : Var) : Node × Numbering :=
  match names.idxOf? v.name with
  | some i => (.var ⟨v.name, i⟩, names)
  | none => (.var ⟨v.name, names.length⟩, names ++ [v.name])

def keepAny (names : Numbering) : Node × Numbering := (.any, names)

end Numbering

structure Rule where
  name : Option String
  body : List Clause
  head : List Clause
  numVars : Nat
  direction : Direction
deriving Inhabited

namespace Rule

/-- A rule with its variables numbered by name. -/
def make (name : Option String) (body head : List Clause) (direction : Direction) : Rule :=
  match direction with
  | .forward =>
    let (body, names) := traverseClauses Numbering.number Numbering.keepAny [] body
    let (head, names) := traverseClauses Numbering.number Numbering.keepAny names head
    { name, body, head, numVars := names.length, direction }
  | .backward =>
    let (head, names) := traverseClauses Numbering.number Numbering.keepAny [] head
    let (body, names) := traverseClauses Numbering.number Numbering.keepAny names body
    { name, body, head, numVars := names.length, direction }

def label (r : Rule) : String := r.name.getD "anon"

def isBackward (r : Rule) : Bool := r.direction == .backward

def withDirection (r : Rule) (direction : Direction) : Rule :=
  make r.name r.body r.head direction

def clauses (r : Rule) : List Clause := r.body ++ r.head

/-- The patterns of the body with their positions. -/
def patterns (r : Rule) : List (Nat × Triple) :=
  r.body.zipIdx.filterMap fun (c, i) => c.pattern?.map fun t => (i, t)

/-- The calls of the body with their positions. -/
def calls (r : Rule) : List (Nat × Call) :=
  r.body.zipIdx.filterMap fun (c, i) => c.call?.map fun call => (i, call)

/-- A rule without patterns, which can fire once. -/
def isAxiom (r : Rule) : Bool := r.patterns.isEmpty

def isGround (r : Rule) : Bool := r.clauses.all Clause.isGround

/-- The name and the numbering do not count. -/
instance : BEq Rule :=
  ⟨fun r s => r.direction == s.direction && r.body == s.body && r.head == s.head⟩

def similarAll (cs ds : List Clause) : Bool :=
  cs.length == ds.length && (cs.zip ds).all fun (c, d) => c.similar d

/-- The comparison in which any variable stands for any other. -/
def similar (r s : Rule) : Bool :=
  r.direction == s.direction && similarAll r.body s.body && similarAll r.head s.head

def textOf (cs : List Clause) : String := ", ".intercalate (cs.map Clause.text)

def text (r : Rule) : String :=
  let name := (r.name.map fun n => n ++ ": ").getD ""
  match r.direction with
  | .forward => "[" ++ name ++ textOf r.body ++ " -> " ++ textOf r.head ++ "]"
  | .backward => "[" ++ name ++ textOf r.head ++ " <- " ++ textOf r.body ++ "]"

/-! ## Validity -/

def invalid (r : Rule) (problem : RuleProblem) : Failure := .invalidRule r.label problem

def checkArity (b : Builtin) (c : Call) : Except Failure Unit :=
  match b.arity with
  | some n =>
    if n = c.args.length then .ok () else .error (.arityMismatch c.name n c.args.length)
  | none => .ok ()

/-- A body call needs the right number of arguments.  In a backward rule it must also
be registered and safe; in a forward rule an unknown name is a clause that fails. -/
def checkBodyCall (r : Rule) (registry : Registry) (c : Call) : Except Failure Unit :=
  match registry.get? c.name with
  | some b => do
    checkArity b c
    if r.isBackward && !b.safe then throw (.unsafeBuiltin c.name r.label)
  | none => if r.isBackward then .error (.unknownBuiltin c.name r.label) else .ok ()

/-- A head call belongs in a forward rule and must be registered. -/
def checkHeadCall (r : Rule) (registry : Registry) (c : Call) : Except Failure Unit :=
  if r.isBackward then .error (r.invalid (.backwardHeadCall c.text))
  else
    match registry.get? c.name with
    | some b => checkArity b c
    | none => .error (.unknownBuiltin c.name r.label)

/-- The rule can be run with these builtins. -/
def validate (r : Rule) (registry : Registry) : Except Failure Unit := do
  if r.head.isEmpty then throw (r.invalid .noHead)
  match r.clauses.find? Clause.isNested with
  | some c => throw (r.invalid (.nestedFunctor c.text))
  | none => pure ()
  (r.body.filterMap Clause.call?).forM (r.checkBodyCall registry)
  (r.head.filterMap Clause.call?).forM (r.checkHeadCall registry)
  if r.isBackward && r.head.length != 1 then throw (r.invalid .severalHeads)

end Rule

/-- A list of rules none of which is similar to another. -/
structure RuleSet where
  name : String
  rules : List Rule := []
deriving Inhabited

namespace RuleSet

def empty (name : String) : RuleSet := { name }

/-- Adds a rule and tells so, unless a similar one is there. -/
def add (s : RuleSet) (r : Rule) : Bool × RuleSet :=
  if s.rules.any fun q => q.similar r then (false, s) else (true, { s with rules := s.rules ++ [r] })

def ofRules (name : String) (rules : List Rule) : RuleSet :=
  rules.foldl (fun s r => (s.add r).2) (empty name)

def byDirection (s : RuleSet) (direction : Direction) : List Rule :=
  s.rules.filter fun r => r.direction == direction

def size (s : RuleSet) : Nat := s.rules.length

end RuleSet

end Entailment
