import Entailment.Failure
import Entailment.Json.Numeral

/-!
# Configuration of a reasoner
-/

namespace Entailment

/-- Which rules run ahead of questions and which on demand. -/
inductive Mode where
  | forward
  | backward
  | hybrid
deriving DecidableEq, Inhabited

namespace Mode

def text : Mode → String
  | .forward => "forward"
  | .backward => "backward"
  | .hybrid => "hybrid"

def title : Mode → String
  | .forward => "Forward"
  | .backward => "Backward"
  | .hybrid => "Hybrid"

def ofText? : String → Option Mode
  | "forward" => some .forward
  | "backward" => some .backward
  | "hybrid" => some .hybrid
  | _ => none

end Mode

structure Config where
  mode : Mode := .hybrid
  derivationLogging : Bool := false
  maxBackwardDepth : Nat := 100
  traceFirings : Bool := false
  maxRecheckRounds : Nat := 64
deriving DecidableEq, Inhabited

namespace Config

def forward : Config := { mode := .forward }

def backward : Config := { mode := .backward }

/-- Keeps derivations and reports every firing. -/
def explain : Config := { derivationLogging := true, traceFirings := true }

def validate (c : Config) : Except Failure Unit :=
  if c.maxBackwardDepth = 0 then .error (.config .zeroDepth) else .ok ()

def toJson (c : Config) : Json :=
  .record
    [ ("mode", .ofText c.mode.text), ("derivation_logging", .bool c.derivationLogging),
      ("max_backward_depth", .ofNat c.maxBackwardDepth), ("trace_firings", .bool c.traceFirings),
      ("max_recheck_rounds", .ofNat c.maxRecheckRounds) ]

def modeOfJson? (depth : Nat) (j : Json) : Option Mode := do
  let (_, tag, content) ← j.variant? depth
  if Json.isUnit content then Mode.ofText? tag else none

/-- The value of a field, or its default where the field is missing. -/
def field {α : Type} (read? : Json → Option α) (value : α) : Option Json → Option α
  | some j => read? j
  | none => some value

/-- A configuration as it is written, missing fields having their defaults. -/
def ofJson? (depth : Nat) (j : Json) : Option Config := do
  let names := ["mode", "derivation_logging", "max_backward_depth", "trace_firings",
    "max_recheck_rounds"]
  match ← j.fields? names true depth with
  | (depth, [mode, logging, maxDepth, trace, rounds]) =>
    let c : Config := {}
    return {
      mode := ← field (modeOfJson? depth) c.mode mode
      derivationLogging := ← field Json.bool? c.derivationLogging logging
      maxBackwardDepth := ← field Json.nat? c.maxBackwardDepth maxDepth
      traceFirings := ← field Json.bool? c.traceFirings trace
      maxRecheckRounds := ← field Json.nat? c.maxRecheckRounds rounds }
  | _ => none

def text (c : Config) : String := c.toJson.pretty 0

/-- Reads a configuration and checks it. -/
def ofText (s : String) : Except Failure Config :=
  match (Json.read? s).bind (ofJson? Json.depthLimit) with
  | some c => do
    c.validate
    return c
  | none => .error .serialization

/-- The configuration with its fields named, on one line. -/
def describe (c : Config) : String :=
  let flag (b : Bool) : String := if b then "true" else "false"
  "ReasonerConfig \x7b mode: " ++ c.mode.title ++
    ", derivation_logging: " ++ flag c.derivationLogging ++
    ", max_backward_depth: " ++ toString c.maxBackwardDepth ++
    ", trace_firings: " ++ flag c.traceFirings ++
    ", max_recheck_rounds: " ++ toString c.maxRecheckRounds ++ " \x7d"

end Config

end Entailment
