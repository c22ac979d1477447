import Entailment.Derivation.Log
import Entailment.Json.Term
import Entailment.Text.Timestamp

/-!
# Derivations in documents

A record keeps what a derivation says when its rule is no longer at hand.  An export
is a time and a list of records.
-/

namespace Entailment

structure DerivationRecord where
  conclusion : Triple
  ruleName : Option String
  rule : String
  antecedents : List (Option Triple)
deriving Inhabited

namespace Derivation

def toRecord (d : Derivation) : DerivationRecord :=
  ⟨d.conclusion, d.rule.name, d.rule.text, d.antecedents⟩

end Derivation

namespace DerivationRecord

def toJson (r : DerivationRecord) : Json :=
  .record
    [ ("conclusion", r.conclusion.toJson), ("rule_name", Json.ofOption .ofText r.ruleName),
      ("rule", .ofText r.rule),
      ("matches", .array (r.antecedents.map (Json.ofOption Triple.toJson))) ]

def ofJson? (depth : Nat) (j : Json) : Option DerivationRecord := do
  match ← j.fields? ["conclusion", "rule_name", "rule", "matches"] false depth with
  | (depth, [some conclusion, ruleName, some rule, some antecedents]) =>
    let (inner, items) ← antecedents.items? depth
    return {
      conclusion := ← Triple.ofJson? depth conclusion
      ruleName := ← (ruleName.getD .null).optional? Json.text?
      rule := ← rule.text?
      antecedents := ← items.mapM (Json.optional? (Triple.ofJson? inner)) }
  | _ => none

def listOfJson? (depth : Nat) (j : Json) : Option (List DerivationRecord) := do
  let (depth, items) ← j.items? depth
  items.mapM (ofJson? depth)

end DerivationRecord

structure DerivationExport where
  exportedAt : String
  derivations : List DerivationRecord

namespace DerivationExport

def toJson (e : DerivationExport) : Json :=
  .record
    [ ("exported_at", .ofText e.exportedAt),
      ("derivations", .array (e.derivations.map DerivationRecord.toJson)) ]

def ofJson? (depth : Nat) (j : Json) : Option DerivationExport := do
  match ← j.fields? ["exported_at", "derivations"] false depth with
  | (depth, [some exportedAt, some derivations]) =>
    let time ← exportedAt.text?
    if Timestamp.isValid time then
      return ⟨time, ← DerivationRecord.listOfJson? depth derivations⟩
    else none
  | _ => none

def ofText (text : String) : Except Failure DerivationExport := Json.decode ofJson? text

end DerivationExport

namespace DerivationLog

def toExport (log : DerivationLog) (time : String) : DerivationExport :=
  ⟨time, log.derivations.map Derivation.toRecord⟩

def toText (log : DerivationLog) (time : String) : String := (log.toExport time).toJson.pretty 0

end DerivationLog

end Entailment
