import Entailment.Term.Triple

/-!
# Shapes of triples

The shape of a triple numbers its variables by first occurrence and forgets their
names.  Triples that differ in the choice of variables alone have one shape.
-/

namespace Entailment

/-- The variable indexes met so far; an index's place is its number in the shape. -/
abbrev ShapeNumbering := List Nat

namespace ShapeNumbering

def place (met : ShapeNumbering) (v : Var) : Node × ShapeNumbering :=
  match met.idxOf? v.index with
  | some i => (.var ⟨"", i⟩, met)
  | none => (.var ⟨"", met.length⟩, met ++ [v.index])

def keepAny (met : ShapeNumbering) : Node × ShapeNumbering := (.any, met)

end ShapeNumbering

namespace Triple

/-- The shape, and the indexes that it numbers. -/
def numberedShape (t : Triple) : Triple × ShapeNumbering :=
  t.traverse ShapeNumbering.place ShapeNumbering.keepAny []

def shape (t : Triple) : Triple := t.numberedShape.1

/-- The number of different variables. -/
def varCount (t : Triple) : Nat := t.numberedShape.2.length

/-- The indexes of the variables, each at its first occurrence. -/
def varIndexes (t : Triple) : List Nat := (t.vars.map Var.index).eraseDups

end Triple

end Entailment
