import Entailment.Number.Layout
import Entailment.Number.Reading

/-!
# Literals

The values that stand at the object of a triple.  Two literals are the same term
when they are of one kind and hold the same value, doubles by their bits and
language tags without regard to ASCII case; `Literal.folded` picks the
representative that decides it.  Numbers of different kinds are compared by
value, through `integer?` and `number?`.
-/

namespace Entailment

/-- The namespace of the schema datatypes. -/
def Vocabulary.schema : String := "http://www.w3.org/2001/XMLSchema#"

/-- The datatype of tagged strings. -/
def Vocabulary.taggedString : String := "http://www.w3.org/1999/02/22-rdf-syntax-ns#langString"

inductive Literal where
  | string (value : String)
  | integer (value : Int64)
  | double (value : Double)
  | boolean (value : Bool)
  | typed (value datatype : String)
  | tagged (value tag : String)
deriving DecidableEq, Inhabited

namespace Literal

def isIntegerType (datatype : String) : Bool :=
  ["integer", "int", "long", "short", "byte", "nonNegativeInteger"].any fun name =>
    datatype == Vocabulary.schema ++ name

def isNumericType (datatype : String) : Bool :=
  isIntegerType datatype ||
    ["decimal", "double", "float"].any fun name => datatype == Vocabulary.schema ++ name

/-- The content of a plain or tagged string. -/
def string? : Literal → Option String
  | .string s => some s
  | .tagged s _ => some s
  | _ => none

/-- An integer, or the value of a text of an integer type. -/
def integer? : Literal → Option Int64
  | .integer n => some n
  | .typed text datatype => if isIntegerType datatype then Reading.int64? text else none
  | _ => none

/-- A number, or the value of a text of a numeric type. -/
def number? : Literal → Option Double
  | .integer n => some (Double.ofInt64 n)
  | .double d => some d
  | .typed text datatype => if isNumericType datatype then Reading.double? text else none
  | _ => none

def boolean? : Literal → Option Bool
  | .boolean b => some b
  | _ => none

def isNumeric (l : Literal) : Bool := l.number?.isSome

def isIntegral (l : Literal) : Bool := l.integer?.isSome

/-- The text of the value alone. -/
def lexicalForm : Literal → String
  | .string s => s
  | .integer n => toString n.toInt
  | .double d => FloatLayout.lexical.render d
  | .boolean b => if b then "true" else "false"
  | .typed text _ => text
  | .tagged s _ => s

def datatype : Literal → String
  | .string _ => Vocabulary.schema ++ "string"
  | .integer _ => Vocabulary.schema ++ "integer"
  | .double _ => Vocabulary.schema ++ "double"
  | .boolean _ => Vocabulary.schema ++ "boolean"
  | .typed _ datatype => datatype
  | .tagged _ _ => Vocabulary.taggedString

/-- The literal as a term shows it, with quotes, datatype or tag. -/
def text : Literal → String
  | .string s => "\"" ++ s ++ "\""
  | .integer n => toString n.toInt
  | .double d => FloatLayout.display.render d
  | .boolean b => if b then "true" else "false"
  | .typed value datatype => "\"" ++ value ++ "\"^^<" ++ datatype ++ ">"
  | .tagged value tag => "\"" ++ value ++ "\"@" ++ tag

/-- The literal with its language tag in lower case. -/
def folded : Literal → Literal
  | .tagged value tag => .tagged value (tag.map Char.toLower)
  | l => l

/-- Literals are the same term when their folded forms are equal. -/
instance : BEq Literal := ⟨fun a b => decide (a.folded = b.folded)⟩

theorem beq_iff_folded {a b : Literal} : (a == b) = true ↔ a.folded = b.folded :=
  decide_eq_true_iff

instance : EquivBEq Literal where
  rfl := beq_iff_folded.2 rfl
  symm h := beq_iff_folded.2 (beq_iff_folded.1 h).symm
  trans h k := beq_iff_folded.2 ((beq_iff_folded.1 h).trans (beq_iff_folded.1 k))

end Literal

end Entailment
