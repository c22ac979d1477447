import Entailment.Text.Regex.Pattern

/-!
# Building patterns

Patterns are put together so that equal parts look alike: a set with one member is
that character, neighbouring characters make one text, sequences and choices do not
nest directly in their like, and what all branches of a choice begin with stands
before it.  None of this changes what matches, or which match is preferred.
-/

namespace Entailment

namespace Regex

namespace Pattern

def ofSet (s : CharSet) : Pattern :=
  match s.single? with
  | some c => text [Char.ofNat c]
  | none => set s

/-- What a pattern contributes to a sequence. -/
def parts : Pattern → List Pattern
  | empty => []
  | seq ps => ps
  | p => [p]

/-- Neighbouring texts become one. -/
def joinTexts : List Pattern → List Pattern
  | [] => []
  | text cs :: rest =>
    match joinTexts rest with
    | text ds :: rest => text (cs ++ ds) :: rest
    | rest => text cs :: rest
  | p :: rest => p :: joinTexts rest

def sequence (ps : List Pattern) : Pattern :=
  match joinTexts (ps.flatMap parts) with
  | [] => empty
  | [p] => p
  | ps => seq ps

/-- What a pattern contributes to a choice. -/
def branches : Pattern → List Pattern
  | alt ps => ps
  | p => [p]

def asSingleChar? : Pattern → Option CharSet
  | text [c] => some (.single c.toNat)
  | _ => none

def asSet? : Pattern → Option CharSet
  | set s => some s
  | _ => none

def asSeq? : Pattern → Option (List Pattern)
  | seq ps => some ps
  | _ => none

/-- The length of the longest common beginning. -/
def commonLength : List Pattern → List Pattern → Nat
  | p :: ps, q :: qs => if p == q then commonLength ps qs + 1 else 0
  | _, _ => 0

/-- The number of parts that all sequences begin with. -/
def commonPrefix : List (List Pattern) → Nat
  | [] => 0
  | first :: others => others.foldl (fun n ps => min n (commonLength first ps)) first.length

/-- A choice, and choices inside it to the given depth. -/
def choiceWithin : Nat → List Pattern → Pattern
  | 0, ps => alt ps
  | depth + 1, ps =>
    match ps.flatMap branches with
    | [] => set .empty
    | [p] => p
    | ps =>
      match ps.mapM asSingleChar?, ps.mapM asSet?, ps.mapM asSeq? with
      | some sets, _, _ => ofSet (CharSet.unionOf sets)
      | none, some sets, _ => ofSet (CharSet.unionOf sets)
      | none, none, some seqs =>
        let n := commonPrefix seqs
        if n = 0 then alt ps
        else
          let rest := choiceWithin depth (seqs.map fun ps => sequence (ps.drop n))
          sequence ((seqs.headD []).take n ++ [rest])
      | none, none, none => alt ps

/-- A choice between patterns.  Taking out a common beginning makes its branches
smaller, so their size bounds how often this happens. -/
def choice (ps : List Pattern) : Pattern := choiceWithin (sizeAll ps + 1) ps

/-- What matches nothing but the empty text is not repeated. -/
def repeated (p : Pattern) (least : Nat) (most : Option Nat) (greedy : Bool) : Pattern :=
  let once := p.isOnlyEmpty
  let least := if once then min least 1 else least
  let most := if once then some (min (most.getD 1) 1) else most
  if least = 0 ∧ most = some 0 then empty
  else if least = 1 ∧ most = some 1 then p
  else repetition p least most greedy

end Pattern

end Regex

end Entailment
