import Entailment.Text.Unicode.Folding

/-!
# Letters that differ in case

Characters with the same folded form make up an orbit.  A set is closed under case
when each orbit lies inside or outside it.
-/

namespace Entailment

namespace Unicode

/-- The characters of a run of the folding table, each with its folded form. -/
def foldings (item : List Char) : List (Nat × Nat) :=
  match splitAt (· == ':') item with
  | [run, image] =>
    match Run.ofText? run with
    | some r => r.members.map fun c => (c, c - r.first + hexValue image)
    | none => []
  | _ => []

/-- The characters with the same folded form, for every folded form that others share. -/
def orbits : List (List Nat) :=
  let pairs := (splitAt (· == ' ') foldingRuns.toList).flatMap foldings
  let byImage := pairs.mergeSort fun p q => decide (p.2 ≤ q.2)
  (byImage.splitBy fun p q => p.2 == q.2).map fun group =>
    (group.map Prod.snd).take 1 ++ group.map Prod.fst

/-- Upper and lower case of the letters of ASCII. -/
def asciiOrbits : List (List Nat) := (List.range 26).map fun i => [65 + i, 97 + i]

end Unicode

namespace CharSet

/-- The set with all of each orbit that it meets. -/
def closeUnder (orbits : List (List Nat)) (s : CharSet) : CharSet :=
  s.union <| ofRanges <| orbits.flatMap fun orbit =>
    if orbit.any s.contains then orbit.map fun c => (c, c) else []

/-- All characters that differ from a member only in case. -/
def folded (s : CharSet) : CharSet := s.closeUnder Unicode.orbits

/-- All characters that differ from a member only in ASCII case. -/
def asciiFolded (s : CharSet) : CharSet := s.closeUnder Unicode.asciiOrbits

end CharSet

end Entailment
