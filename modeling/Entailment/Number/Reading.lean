import Entailment.Number.Shortest

/-!
# Reading numbers

Texts of 64-bit integers and of doubles.  An integer is an optional sign and
decimal digits.  A double is an optional sign and either a word for infinity or
for no number, in any case of letters, or digits with an optional point and an
optional exponent; its value is rounded once, from the exact decimal.
-/

namespace Entailment

/-- The integer as a word, unless it is out of range. -/
def Int64.checked (n : Int) : Option Int64 :=
  if Int64.minValue.toInt ≤ n ∧ n ≤ Int64.maxValue.toInt then some (Int64.ofInt n) else none

theorem Int64.checked_eq_some_iff {n : Int} {m : Int64} :
    Int64.checked n = some m ↔ m.toInt = n := by
  unfold Int64.checked
  constructor
  · intro h
    split at h
    · rename_i hrange
      rw [← Option.some.inj h]
      rw [Int64.toInt_minValue, Int64.toInt_maxValue] at hrange
      exact Int64.toInt_ofInt_of_le hrange.1 (by omega)
    · cases h
  · rintro rfl
    rw [if_pos ⟨m.minValue_le_toInt, m.toInt_le⟩, Int64.ofInt_toInt]

namespace Reading

def digitValue (c : Char) : Nat := c.toNat - '0'.toNat

def natOfDigits (digits : List Char) : Nat :=
  digits.foldl (fun n c => 10 * n + digitValue c) 0

/-- Splits off a leading sign; `true` stands for a minus. -/
def sign : List Char → Bool × List Char
  | '-' :: rest => (true, rest)
  | '+' :: rest => (false, rest)
  | cs => (false, cs)

def digits (cs : List Char) : List Char × List Char :=
  (cs.takeWhile Char.isDigit, cs.dropWhile Char.isDigit)

/-- All of the text is digits, and there is at least one. -/
def natural? (cs : List Char) : Option Nat :=
  if cs ≠ [] ∧ cs.all Char.isDigit then some (natOfDigits cs) else none

def int64? (text : String) : Option Int64 :=
  let (negative, rest) := sign text.toList
  (natural? rest).bind fun n => Int64.checked (if negative then -(n : Int) else n)

/-- The value of an exponent's text, if it has digits. -/
def exponent? (cs : List Char) : Option Int :=
  let (negative, rest) := sign cs
  (natural? rest).map fun n => if negative then -(n : Int) else n

/-- The digits of a number, read as one natural, and the power of ten they count. -/
def decimal? (cs : List Char) : Option Decimal :=
  let (whole, afterWhole) := digits cs
  let (fraction, rest) :=
    match afterWhole with
    | '.' :: afterPoint => digits afterPoint
    | _ => ([], afterWhole)
  if whole = [] ∧ fraction = [] then none
  else
    let value := natOfDigits (whole ++ fraction)
    let shift : Int := -(fraction.length : Int)
    match rest with
    | [] => some ⟨value, shift⟩
    | e :: exponentText =>
      if e = 'e' ∨ e = 'E' then (exponent? exponentText).map fun n => ⟨value, n + shift⟩ else none

/-- The double nearest to a decimal.  Beyond `1e310` and below `1e-330` the answer
is known without the power of ten. -/
def nearestDouble (d : Decimal) : Double :=
  if d.digits = 0 then Double.zero
  else
    let lead := d.exponent + (Nat.toDigits 10 d.digits).length
    if 310 < lead then Double.infinity
    else if lead < -330 then Double.zero
    else Double.nearest (d.digits * Nat.pow 10 d.exponent.toNat) (Nat.pow 10 (-d.exponent).toNat)

def unsignedDouble? (cs : List Char) : Option Double :=
  let word := cs.map Char.toLower
  if word = "inf".toList ∨ word = "infinity".toList then some Double.infinity
  else if word = "nan".toList then some Double.nan
  else (decimal? cs).map nearestDouble

def double? (text : String) : Option Double :=
  let (negative, rest) := sign text.toList
  (unsignedDouble? rest).map (Double.withSign negative)

end Reading

end Entailment
