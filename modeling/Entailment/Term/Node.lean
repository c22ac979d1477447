import Entailment.Term.Literal

/-!
# Nodes

The terms of triples and rules: identifiers, literals, blank nodes, and the
variables, wildcards and functors that rules add.  A node is ground when neither
a variable nor a wildcard occurs in it.  Two nodes are the same term when their
folded forms are equal.  Each traversal comes as a pair, for a node and for the
arguments of a functor.
-/

namespace Entailment

/-- A variable is named for readers and numbered for the slot of a rule's
environment that holds its value. -/
structure Var where
  name : String
  index : Nat
deriving DecidableEq, Inhabited

inductive Node where
  | uri (value : String)
  | literal (value : Literal)
  | blank (id : Nat)
  | var (v : Var)
  | any
  | functor (name : String) (args : List Node)
deriving Inhabited

namespace Node

def integer (n : Int64) : Node := .literal (.integer n)

def string (s : String) : Node := .literal (.string s)

def isUri : Node → Bool
  | .uri _ => true
  | _ => false

def isLiteral : Node → Bool
  | .literal _ => true
  | _ => false

def isBlank : Node → Bool
  | .blank _ => true
  | _ => false

def isVariable : Node → Bool
  | .var _ => true
  | _ => false

def isAny : Node → Bool
  | .any => true
  | _ => false

def isFunctor : Node → Bool
  | .functor _ _ => true
  | _ => false

def uri? : Node → Option String
  | .uri u => some u
  | _ => none

def literal? : Node → Option Literal
  | .literal l => some l
  | _ => none

def var? : Node → Option Var
  | .var v => some v
  | _ => none

mutual
def isGround : Node → Bool
  | .var _ => false
  | .any => false
  | .functor _ args => allGround args
  | _ => true

def allGround : List Node → Bool
  | [] => true
  | a :: rest => a.isGround && allGround rest
end

theorem allGround_eq_all (args : List Node) : allGround args = args.all isGround := by
  induction args with
  | nil => rfl
  | cons a rest ih => simp [allGround, ih]

/-- A functor with a functor among its arguments. -/
def isNested : Node → Bool
  | .functor _ args => args.any isFunctor
  | _ => false

mutual
/-- Nodes are the same term when they are built alike from the same parts; literals
bring their own equality. -/
def same : Node → Node → Bool
  | .uri a, .uri b => a == b
  | .literal a, .literal b => a == b
  | .blank a, .blank b => a == b
  | .var a, .var b => a == b
  | .any, .any => true
  | .functor f as, .functor g bs => f == g && sameAll as bs
  | _, _ => false

def sameAll : List Node → List Node → Bool
  | [], [] => true
  | a :: as, b :: bs => a.same b && sameAll as bs
  | _, _ => false
end

instance : BEq Node := ⟨Node.same⟩

mutual
/-- The node with every literal in its folded form. -/
def folded : Node → Node
  | .literal l => .literal l.folded
  | .functor name args => .functor name (foldedAll args)
  | n => n

def foldedAll : List Node → List Node
  | [] => []
  | a :: rest => a.folded :: foldedAll rest
end

mutual
theorem same_iff_folded (a b : Node) : a.same b = true ↔ a.folded = b.folded := by
  cases a <;> cases b <;> simp [same, folded, Literal.beq_iff_folded, sameAll_iff_foldedAll]

theorem sameAll_iff_foldedAll (as bs : List Node) :
    sameAll as bs = true ↔ foldedAll as = foldedAll bs := by
  match as, bs with
  | [], [] => simp [sameAll, foldedAll]
  | [], _ :: _ => simp [sameAll, foldedAll]
  | _ :: _, [] => simp [sameAll, foldedAll]
  | a :: as, b :: bs =>
    simp [sameAll, foldedAll, same_iff_folded a b, sameAll_iff_foldedAll as bs]
end

instance : EquivBEq Node where
  rfl := (same_iff_folded _ _).2 rfl
  symm h := (same_iff_folded _ _).2 ((same_iff_folded _ _).1 h).symm
  trans h k := (same_iff_folded _ _).2 (((same_iff_folded _ _).1 h).trans ((same_iff_folded _ _).1 k))

mutual
/-- The comparison in which any variable stands for any other. -/
def similar : Node → Node → Bool
  | .var _, .var _ => true
  | .functor f as, .functor g bs => f == g && similarAll as bs
  | a, b => a == b

def similarAll : List Node → List Node → Bool
  | [], [] => true
  | a :: as, b :: bs => a.similar b && similarAll as bs
  | _, _ => false
end

mutual
def text : Node → String
  | .uri u => u
  | .literal l => l.text
  | .blank id => "_:b" ++ toString id
  | .var v => "?" ++ v.name
  | .any => "*"
  | .functor name args => name ++ "(" ++ textAll args ++ ")"

def textAll : List Node → String
  | [] => ""
  | [a] => a.text
  | a :: b :: rest => a.text ++ ", " ++ textAll (b :: rest)
end

mutual
/-- The variables in order of occurrence, repetitions included. -/
def vars : Node → List Var
  | .var v => [v]
  | .functor _ args => varsAll args
  | _ => []

def varsAll : List Node → List Var
  | [] => []
  | a :: rest => a.vars ++ varsAll rest
end

mutual
/-- Every variable replaced by its image. -/
def subst (image : Var → Node) : Node → Node
  | .var v => image v
  | .functor name args => .functor name (substAll image args)
  | n => n

def substAll (image : Var → Node) : List Node → List Node
  | [] => []
  | a :: rest => a.subst image :: substAll image rest
end

mutual
/-- Every variable and wildcard replaced by its image, from left to right, with a
state that passes through. -/
def traverse {σ : Type} (onVar : σ → Var → Node × σ) (onAny : σ → Node × σ) :
    σ → Node → Node × σ
  | st, .var v => onVar st v
  | st, .any => onAny st
  | st, .functor name args =>
    let (args, st) := traverseAll onVar onAny st args
    (.functor name args, st)
  | st, n => (n, st)

def traverseAll {σ : Type} (onVar : σ → Var → Node × σ) (onAny : σ → Node × σ) :
    σ → List Node → List Node × σ
  | st, [] => ([], st)
  | st, a :: rest =>
    let (a, st) := a.traverse onVar onAny st
    let (rest, st) := traverseAll onVar onAny st rest
    (a :: rest, st)
end

mutual
/-- The number of symbols. -/
def size : Node → Nat
  | .functor _ args => 1 + sizeAll args
  | _ => 1

def sizeAll : List Node → Nat
  | [] => 0
  | a :: rest => a.size + sizeAll rest
end

/-- One more than the largest variable index, and zero without variables. -/
def varBound (n : Node) : Nat := (n.vars.map fun v => v.index + 1).foldl max 0

/-- Every variable moved up by `offset`. -/
def shift (offset : Nat) (n : Node) : Node :=
  n.subst fun v => .var { v with index := v.index + offset }

end Node

end Entailment
