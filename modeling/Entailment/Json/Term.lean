import Entailment.Json.Numeral
import Entailment.Rule.Basic

/-!
# Terms and rules in documents

A value of a type with several forms is an object whose key names the form, or the
name alone if the form holds nothing.  Structures are written as objects and read
as objects or arrays.
-/

namespace Entailment

namespace Literal

def toJson : Literal → Json
  | .string s => .variant "String" (.ofText s)
  | .integer n => .variant "Integer" (.ofInt n.toInt)
  | .double d => .variant "Float" (.ofDouble d)
  | .boolean b => .variant "Boolean" (.bool b)
  | .typed value datatype =>
    .variant "Typed" (.record [("value", .ofText value), ("datatype", .ofText datatype)])
  | .tagged value tag =>
    .variant "LangString" (.record [("value", .ofText value), ("lang", .ofText tag)])

def textPair? (first second : String) (depth : Nat) (j : Json) : Option (String × String) := do
  match ← j.fields? [first, second] false depth with
  | (_, [some a, some b]) => return (← a.text?, ← b.text?)
  | _ => none

def ofJson? (depth : Nat) (j : Json) : Option Literal := do
  match ← j.variant? depth with
  | (_, "String", some v) => return .string (← v.text?)
  | (_, "Integer", some v) => return .integer (← v.int64?)
  | (_, "Float", some v) => return .double (← v.double?)
  | (_, "Boolean", some v) => return .boolean (← v.bool?)
  | (depth, "Typed", some v) =>
    let (value, datatype) ← textPair? "value" "datatype" depth v
    return .typed value datatype
  | (depth, "LangString", some v) =>
    let (value, tag) ← textPair? "value" "lang" depth v
    return .tagged value tag
  | _ => none

end Literal

def Var.toJson (v : Var) : Json := .record [("name", .ofText v.name), ("index", .ofNat v.index)]

def Var.ofJson? (depth : Nat) (j : Json) : Option Var := do
  match ← j.fields? ["name", "index"] false depth with
  | (_, [some name, some index]) => return ⟨← name.text?, ← index.nat?⟩
  | _ => none

def functorJson (name : String) (args : List Json) : Json :=
  .record [("name", .ofText name), ("args", .array args)]

namespace Node

mutual
def toJson : Node → Json
  | .uri u => .variant "Uri" (.ofText u)
  | .literal l => .variant "Literal" l.toJson
  | .blank id => .variant "Blank" (.ofNat id)
  | .var v => .variant "Variable" v.toJson
  | .any => .ofText "Any"
  | .functor name args => .variant "Functor" (functorJson name (toJsonAll args))

def toJsonAll : List Node → List Json
  | [] => []
  | n :: rest => n.toJson :: toJsonAll rest
end

end Node

/-- A functor whose arguments are read by the given reader. -/
def functorBy? (arg? : Nat → Json → Option Node) (depth : Nat) (j : Json) : Option Call := do
  match ← j.fields? ["name", "args"] false depth with
  | (depth, [some name, some args]) =>
    let (depth, items) ← args.items? depth
    return ⟨← name.text?, ← items.mapM (arg? depth)⟩
  | _ => none

/-- A node in which functors nest at most as often as the first number says; containers
run out first. -/
def Node.ofJsonWithin? : Nat → Nat → Json → Option Node
  | 0, _, _ => none
  | nesting + 1, depth, j => do
    match ← j.variant? depth with
    | (_, "Uri", some v) => return .uri (← v.text?)
    | (depth, "Literal", some v) => return .literal (← Literal.ofJson? depth v)
    | (_, "Blank", some v) => return .blank (← v.nat?)
    | (depth, "Variable", some v) => return .var (← Var.ofJson? depth v)
    | (_, "Any", content) => if Json.isUnit content then some .any else none
    | (depth, "Functor", some v) =>
      return (← functorBy? (Node.ofJsonWithin? nesting) depth v).toNode
    | _ => none

def Node.ofJson? (depth : Nat) (j : Json) : Option Node :=
  Node.ofJsonWithin? (Json.depthLimit + 1) depth j

namespace Call

def toJson (c : Call) : Json := functorJson c.name (Node.toJsonAll c.args)

def ofJson? (depth : Nat) (j : Json) : Option Call := functorBy? Node.ofJson? depth j

end Call

namespace Triple

def toJson (t : Triple) : Json :=
  .record
    [ ("subject", t.subject.toJson), ("predicate", t.predicate.toJson),
      ("object", t.object.toJson) ]

def ofJson? (depth : Nat) (j : Json) : Option Triple := do
  match ← j.fields? ["subject", "predicate", "object"] false depth with
  | (depth, [some s, some p, some o]) =>
    return ⟨← Node.ofJson? depth s, ← Node.ofJson? depth p, ← Node.ofJson? depth o⟩
  | _ => none

end Triple

namespace Clause

def toJson : Clause → Json
  | .pattern t => .variant "Triple" t.toJson
  | .call c => .variant "Functor" c.toJson

def ofJson? (depth : Nat) (j : Json) : Option Clause := do
  match ← j.variant? depth with
  | (depth, "Triple", some v) => return .pattern (← Triple.ofJson? depth v)
  | (depth, "Functor", some v) => return .call (← Call.ofJson? depth v)
  | _ => none

def listOfJson? (depth : Nat) (j : Json) : Option (List Clause) := do
  let (depth, items) ← j.items? depth
  items.mapM (ofJson? depth)

end Clause

namespace Direction

def toJson : Direction → Json
  | .forward => .ofText "Forward"
  | .backward => .ofText "Backward"

def ofJson? (depth : Nat) (j : Json) : Option Direction := do
  let (_, tag, content) ← j.variant? depth
  if !Json.isUnit content then none
  else if tag == "Forward" then some .forward
  else if tag == "Backward" then some .backward
  else none

end Direction

namespace Rule

def toJson (r : Rule) : Json :=
  .record
    [ ("name", Json.ofOption .ofText r.name), ("body", .array (r.body.map Clause.toJson)),
      ("head", .array (r.head.map Clause.toJson)), ("num_vars", .ofNat r.numVars),
      ("direction", r.direction.toJson) ]

/-- A rule as it is written, its variables keeping their numbers. -/
def ofJson? (depth : Nat) (j : Json) : Option Rule := do
  match ← j.fields? ["name", "body", "head", "num_vars", "direction"] false depth with
  | (depth, [name, some body, some head, some numVars, some direction]) =>
    return {
      name := ← (name.getD .null).optional? Json.text?
      body := ← Clause.listOfJson? depth body
      head := ← Clause.listOfJson? depth head
      numVars := ← numVars.nat?
      direction := ← Direction.ofJson? depth direction }
  | _ => none

end Rule

namespace Json

/-- A value of the type that a reader reads, from a whole text. -/
def decode {α : Type} (ofJson? : Nat → Json → Option α) (text : String) : Except Failure α :=
  match (Json.read? text).bind (ofJson? depthLimit) with
  | some a => .ok a
  | none => .error .serialization

end Json

end Entailment
