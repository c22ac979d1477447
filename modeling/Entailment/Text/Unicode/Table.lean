import Entailment.Text.CharSet

/-!
# Tables of characters

A table lists names and members.  Members are written in hexadecimal, as code
points, as ranges such as `41-5a`, or as runs such as `100-12e/2`, which goes by
twos.
-/

namespace Entailment

namespace Unicode

def hexDigit? (c : Char) : Option Nat :=
  if '0' ≤ c ∧ c ≤ '9' then some (c.toNat - '0'.toNat)
  else if 'a' ≤ c ∧ c ≤ 'f' then some (c.toNat - 'a'.toNat + 10)
  else if 'A' ≤ c ∧ c ≤ 'F' then some (c.toNat - 'A'.toNat + 10)
  else none

/-- The value of hexadecimal digits; other characters count nothing. -/
def hexValue (cs : List Char) : Nat := cs.foldl (fun n c => 16 * n + (hexDigit? c).getD 0) 0

/-- The pieces of a list between the elements that satisfy `isSeparator`. -/
def splitAt {α : Type} (isSeparator : α → Bool) : List α → List (List α)
  | [] => [[]]
  | c :: rest =>
    match splitAt isSeparator rest with
    | [] => [[c]]
    | piece :: pieces => if isSeparator c then [] :: piece :: pieces else (c :: piece) :: pieces

/-- The code points from `first` to `last`, by `step`. -/
structure Run where
  first : Nat
  last : Nat
  step : Nat := 1

namespace Run

def members (r : Run) : List Nat :=
  (List.range ((r.last - r.first) / r.step + 1)).map fun i => r.first + i * r.step

/-- The members as ranges: one if there are no gaps. -/
def ranges (r : Run) : List (Nat × Nat) :=
  if r.step ≤ 1 then [(r.first, r.last)] else r.members.map fun c => (c, c)

def ofText? (cs : List Char) : Option Run :=
  match splitAt (fun c => c == '-' || c == '/') cs with
  | [a] => if a.isEmpty then none else some ⟨hexValue a, hexValue a, 1⟩
  | [a, b] => some ⟨hexValue a, hexValue b, 1⟩
  | [a, b, step] => some ⟨hexValue a, hexValue b, hexValue step⟩
  | _ => none

end Run

/-- The members that a text lists. -/
def membersOf (text : String) : CharSet :=
  CharSet.ofRanges <|
    ((splitAt (· == ' ') text.toList).filterMap Run.ofText?).flatMap Run.ranges

/-- Names and members. -/
abbrev Table := List (List String × String)

namespace Table

/-- The members of the entry with the name. -/
def get? (table : Table) (name : String) : Option CharSet :=
  (table.find? fun entry => entry.1.contains name).map fun entry => membersOf entry.2

def get (table : Table) (name : String) : CharSet := (table.get? name).getD .empty

def unionOf (table : Table) (names : List String) : CharSet :=
  CharSet.unionOf (names.filterMap table.get?)

/-- The members of all entries. -/
def all (table : Table) : CharSet := CharSet.unionOf (table.map fun entry => membersOf entry.2)

end Table

end Unicode

end Entailment
