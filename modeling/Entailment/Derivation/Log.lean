import Entailment.Rule.Basic

/-!
# Derivations

A derivation is one step of a proof: a conclusion, the rule that drew it and the
triples that the rule's patterns matched.  The log lists the derivations of every
conclusion.  A trace shows a triple's proofs as an indented outline, in which every
conclusion is expanded once.
-/

namespace Entailment

structure Derivation where
  conclusion : Triple
  rule : Rule
  /-- One entry for each clause of the body, present at the patterns. -/
  antecedents : List (Option Triple)
deriving Inhabited

namespace Derivation

instance : BEq Derivation :=
  ⟨fun d e =>
    d.conclusion == e.conclusion && d.rule == e.rule && d.antecedents == e.antecedents⟩

def matchedTriples (d : Derivation) : List Triple := d.antecedents.filterMap id

/-- The patterns unify with the antecedents at their positions. -/
def unifyAntecedents (antecedents : List (Option Triple)) :
    List (Nat × Triple) → Bindings → Option Bindings
  | [], b => some b
  | (i, pattern) :: rest, b =>
    match (antecedents[i]?).join with
    | none => none
    | some fact =>
      match b.matching? pattern fact with
      | some b => unifyAntecedents antecedents rest b
      | none => none

/-- The antecedents match the body, and with them some head pattern the conclusion. -/
def verify (d : Derivation) : Bool :=
  if d.antecedents.length != d.rule.body.length then false
  else
    match unifyAntecedents d.antecedents d.rule.patterns (.empty d.rule.numVars) with
    | none => false
    | some b =>
      d.rule.head.any fun c =>
        match c with
        | .pattern head => (b.matching? head d.conclusion).isSome
        | .call _ => false

def text (d : Derivation) : String :=
  d.conclusion.text ++ " <- " ++ d.rule.label ++ " [" ++
    ", ".intercalate (d.matchedTriples.map Triple.text) ++ "]"

end Derivation

structure DerivationLog where
  entries : OrderedMap Triple (List Derivation) := .empty
deriving Inhabited

namespace DerivationLog

def empty : DerivationLog := {}

def get (log : DerivationLog) (t : Triple) : List Derivation := (log.entries.get? t).getD []

/-- Adds a derivation, and tells whether it was new. -/
def record (log : DerivationLog) (d : Derivation) : Bool × DerivationLog :=
  if (log.get d.conclusion).contains d then (false, log)
  else (true, ⟨log.entries.alter d.conclusion fun list => list ++ [d]⟩)

/-- Takes out a derivation, and tells whether it was there. -/
def remove (log : DerivationLog) (d : Derivation) : Bool × DerivationLog :=
  match log.entries.get? d.conclusion with
  | none => (false, log)
  | some list =>
    let kept := list.filter fun e => !(e == d)
    (kept.length != list.length, ⟨log.entries.store List.isEmpty d.conclusion kept⟩)

def derivations (log : DerivationLog) : List Derivation := log.entries.values.flatten

/-- The number of conclusions. -/
def size (log : DerivationLog) : Nat := log.entries.size

def isEmpty (log : DerivationLog) : Bool := log.entries.isEmpty

/-! ## Traces -/

/-- A part of an outline that is still to be written. -/
inductive TraceItem where
  | triple (t : Triple) (depth : Nat)
  | step (d : Derivation) (depth : Nat)

def margin (depth : Nat) : String := String.ofList (List.replicate (4 * depth) ' ')

/-- The lines of an outline, top down; `seen` holds the conclusions expanded before. -/
def outline (log : DerivationLog) : Nat → List Triple → List TraceItem → List String
  | 0, _, _ => []
  | _ + 1, _, [] => []
  | fuel + 1, seen, .triple t depth :: rest =>
    match log.get t with
    | [] => (margin depth ++ "Fact " ++ t.text) :: outline log fuel seen rest
    | steps =>
      if seen.contains t then
        (margin depth ++ t.text ++ " - already shown") :: outline log fuel seen rest
      else outline log fuel (t :: seen) (steps.map (TraceItem.step · depth) ++ rest)
  | fuel + 1, seen, .step d depth :: rest =>
    (margin depth ++ "Rule " ++ d.rule.label ++ " concluded " ++ d.conclusion.text ++ " <-") ::
      outline log fuel seen (d.matchedTriples.map (TraceItem.triple · (depth + 1)) ++ rest)

/-- Every derivation is expanded at most once, and gives an item for itself and one
for each of its antecedents. -/
def outlineBound (log : DerivationLog) : Nat :=
  (log.derivations.map fun d => d.matchedTriples.length + 1).foldr (· + ·) 2

def traceLines (log : DerivationLog) (t : Triple) : List String :=
  log.outline log.outlineBound [] [.triple t 0]

def trace (log : DerivationLog) (t : Triple) : String :=
  String.join ((log.traceLines t).map fun line => line ++ "\n")

end DerivationLog

end Entailment
