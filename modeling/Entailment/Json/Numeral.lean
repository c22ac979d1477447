import Entailment.Json.Basic

/-!
# Numbers of documents

The value of a number literal.  A whole number is a word or else a double; a double
is computed from the leading digits that fit a word by a single multiplication or
division by a power of ten, which may differ from the nearest double in the last
place.
-/

namespace Entailment

namespace Json

/-- The value of a number literal. -/
inductive Numeral where
  | natural (n : Nat)
  /-- A negative number. -/
  | negative (n : Int)
  | real (d : Double)

namespace Numeral

def wordLimit : Nat := Nat.pow 2 64

/-- The digits that fit a word, with the number of the others. -/
def leadingWord : List Char → Nat → Nat × List Char
  | [], value => (value, [])
  | c :: rest, value =>
    let next := 10 * value + Reading.digitValue c
    if next < wordLimit then leadingWord rest next else (value, c :: rest)

def powerOfTen (n : Nat) : Double := Double.nearest (Nat.pow 10 n) 1

/-- `value * 10 ^ exponent` by doubles, unless it is too large. -/
def scaleWithin : Nat → Double → Int → Option Double
  | 0, d, _ => some d
  | fuel + 1, d, exponent =>
    if exponent.natAbs ≤ 308 then
      if 0 ≤ exponent then
        let product := d.mul (powerOfTen exponent.natAbs)
        if product.isInfinite then none else some product
      else some (d.div (powerOfTen exponent.natAbs))
    else if d.isZero then some d
    else if 0 ≤ exponent then none
    else scaleWithin fuel (d.div (powerOfTen 308)) (exponent + 308)

/-- Four divisions take any word to zero. -/
def scale (value : Nat) (exponent : Int) : Option Double :=
  scaleWithin 5 (Double.ofFloat (UInt64.ofNat value).toFloat) exponent

def exponentLimit : Nat := Nat.pow 2 31 - 1

/-- The exponent's effect on a value; one beyond 32 bits makes zero or too much. -/
def scaleBy (value : Nat) (shift : Int) (exponentText : List Char) : Option Double :=
  match exponentText with
  | [] => scale value shift
  | _ :: signed =>
    let (isNegative, ds) := Reading.sign signed
    let magnitude := Reading.natOfDigits ds
    if exponentLimit < magnitude then
      if value != 0 && !isNegative then none else some Double.zero
    else scale value (if isNegative then shift - magnitude else shift + magnitude)

/-- The magnitude of a number with a fraction, an exponent or too many digits. -/
def realMagnitude (whole fraction exponentText : List Char) : Option Double :=
  let (value, spare) := leadingWord whole 0
  let (value, unused) := leadingWord fraction value
  let used := fraction.length - unused.length
  scaleBy value ((spare.length : Int) - used) exponentText

/-- The value of a literal, unless it is out of range. -/
def ofLiteral? (literal : String) : Option Numeral :=
  let (isNegative, cs) := Reading.sign literal.toList
  let (whole, rest) := Reading.digits cs
  let (fraction, exponentText) :=
    match rest with
    | '.' :: rest => Reading.digits rest
    | _ => ([], rest)
  let n := Reading.natOfDigits whole
  if rest.isEmpty && decide (n < wordLimit) then
    if !isNegative then some (.natural n)
    else if n = 0 ∨ Nat.pow 2 63 < n then
      some (.real (Double.neg (Double.ofFloat (UInt64.ofNat n).toFloat)))
    else some (.negative (-(n : Int)))
  else
    (realMagnitude whole fraction exponentText).map fun d => .real (Double.withSign isNegative d)

end Numeral

/-! ## Values of one kind -/

def numeral? : Json → Option Numeral
  | .number literal => Numeral.ofLiteral? literal
  | _ => none

/-- A whole number that fits an unsigned word. -/
def nat? (j : Json) : Option Nat :=
  match j.numeral? with
  | some (.natural n) => some n
  | _ => none

/-- A whole number that fits a signed word. -/
def int64? (j : Json) : Option Int64 :=
  match j.numeral? with
  | some (.natural n) => Int64.checked n
  | some (.negative n) => Int64.checked n
  | _ => none

def double? (j : Json) : Option Double :=
  match j.numeral? with
  | some (.natural n) => some (Double.ofFloat (UInt64.ofNat n).toFloat)
  | some (.negative n) => some (Double.ofInt64 (Int64.ofInt n))
  | some (.real d) => some d
  | none => none

def bool? : Json → Option Bool
  | .bool b => some b
  | _ => none

def text? : Json → Option String
  | .string content => content
  | _ => none

/-- Null for nothing, or a value. -/
def optional? {α : Type} (f : Json → Option α) : Json → Option (Option α)
  | .null => some none
  | j => (f j).map some

/-! ## Containers, to a bounded depth -/

/-- Containers may nest this deep. -/
def depthLimit : Nat := 128

/-- The depth that is left inside a container. -/
def enter? (depth : Nat) : Option Nat := if depth ≤ 1 then none else some (depth - 1)

def items? (depth : Nat) : Json → Option (Nat × List Json)
  | .array items => (enter? depth).map fun d => (d, items)
  | _ => none

/-- A name alone, or an object whose one key is the name of what it holds. -/
def variant? (depth : Nat) : Json → Option (Nat × String × Option Json)
  | .string (some tag) => some (depth, tag, none)
  | .object [(some tag, v)] => (enter? depth).map fun d => (d, tag, some v)
  | _ => none

/-- The variant's name without a content: alone, or with null. -/
def isUnit : Option Json → Bool
  | none => true
  | some .null => true
  | _ => false

/-- The values of an object's known keys, each of which comes at most once. -/
def memberValues? (names : List String) (members : List (Option String × Json)) :
    Option (List (Option Json)) :=
  if members.any fun m => m.1.isNone then none
  else
    names.mapM fun name =>
      match members.filter fun m => m.1 == some name with
      | [] => some none
      | [m] => some (some m.2)
      | _ => none

/-- The fields of a structure, written as an object or as an array in their order.  An
array lists all of them, or a first part of them if the others have defaults. -/
def fields? (names : List String) (hasDefaults : Bool) (depth : Nat) :
    Json → Option (Nat × List (Option Json))
  | .object members => do return (← enter? depth, ← memberValues? names members)
  | .array items =>
    if items.length = names.length ∨ (hasDefaults ∧ items.length < names.length) then
      (enter? depth).map fun d =>
        (d, items.map some ++ List.replicate (names.length - items.length) none)
    else none
  | _ => none

end Json

end Entailment
