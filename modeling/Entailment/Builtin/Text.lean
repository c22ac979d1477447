import Entailment.Builtin.Basic
import Entailment.Builtin.Value
import Entailment.Text.Regex.Match

/-!
# Texts

Identifiers and literals have texts, which can be joined, measured and matched.
-/

namespace Entailment

namespace Builtin

/-- Joins the texts of all arguments but the last, to which the result is bound. -/
def concatenation (name : String) (make : String → Node) : Builtin :=
  { name
    body := fun _ args st =>
      match args.getLast? with
      | none => (false, st)
      | some target =>
        match args.dropLast.mapM Node.lexical? with
        | some parts => st.bind target (make (String.join parts))
        | none => (false, st) }

/-- Binds targets to values in order, up to the first that fails. -/
def bindEach : List (Node × Node) → CallState → Bool × CallState
  | [], st => (true, st)
  | (target, value) :: rest, st =>
    match st.bind target value with
    | (true, st) => bindEach rest st
    | (false, st) => (false, st)

/-- The groups of a pattern that matches the whole text. -/
def wholeMatch? (pattern text : String) : Option (List (Option String)) := do
  let program ← Regex.Program.read? ("^(?:" ++ pattern ++ ")$")
  let captures ← program.captures? text
  return captures.drop 1

/-- Matches a text with a pattern and binds the groups; one that took no part, or does
not exist, is empty. -/
def regexMatch : Builtin :=
  { name := "regex"
    body := fun _ args st =>
      match args with
      | text :: pattern :: targets =>
        match text.lexical?, pattern.lexical? with
        | some text, some pattern =>
          match wholeMatch? pattern text with
          | some groups =>
            let value (i : Nat) : Node := .string ((groups[i]?).join.getD "")
            bindEach (targets.zip ((List.range targets.length).map value)) st
          | none => (false, st)
        | _, _ => (false, st)
      | _ => (false, st) }

/-- The number of characters. -/
def textLength : Builtin :=
  { name := "strlen"
    arity := some 2
    body := fun _ args st =>
      match args with
      | [text, target] =>
        match text.lexical? with
        | some s => st.bind target (.integer (Int64.ofNat s.length))
        | none => (false, st)
      | _ => (false, st) }

def texts : List Builtin :=
  [concatenation "strConcat" .string, concatenation "uriConcat" .uri, regexMatch, textLength]

end Builtin

end Entailment
