import Entailment.Number.Double

/-!
# Shortest decimal digits

`Double.shortest` gives the fewest decimal digits that read back as the number,
and among those the digits nearest to it.  The reals that round to a double form
an interval; for one digit, two digits, and so on, the number's two neighbours on
that decimal grid are tried, in exact arithmetic, until one lies inside.
-/

namespace Entailment

/-- The number `digits * 10 ^ exponent`. -/
structure Decimal where
  digits : Nat
  exponent : Int
deriving DecidableEq, Repr

namespace Decimal

/-- Moves trailing zeros into the exponent. -/
def trimWith : Nat → Decimal → Decimal
  | 0, d => d
  | fuel + 1, d =>
    if d.digits ≠ 0 ∧ d.digits % 10 = 0 then trimWith fuel ⟨d.digits / 10, d.exponent + 1⟩ else d

/-- No digits but the significant ones: the last digit is not zero. -/
def trim (d : Decimal) : Decimal := trimWith d.digits.log2 d

end Decimal

namespace Double

/-- The positive reals that round to `m * 2 ^ q`, in quarters of `2 ^ q`. -/
structure RoundingInterval where
  low : Nat
  mid : Nat
  high : Nat
  closed : Bool

/-- The lower end is a quarter away where the next double below is on the finer scale. -/
def roundingInterval (m : Nat) (q : Int) : RoundingInterval :=
  { low := if m = Nat.pow 2 52 ∧ -1074 < q then 4 * m - 1 else 4 * m - 2
    mid := 4 * m
    high := 4 * m + 2
    closed := m % 2 == 0 }

/-- `a * 2 ^ q` compared with `b * 10 ^ k`. -/
def compareScaled (a : Nat) (q : Int) (b : Nat) (k : Int) : Ordering :=
  compare (a * Nat.pow 2 q.toNat * Nat.pow 10 (-k).toNat)
    (b * Nat.pow 10 k.toNat * Nat.pow 2 (-q).toNat)

/-- The exponent of the leading decimal digit of `m * 2 ^ q`, for a positive `m`. -/
def leadingDigit (m : Nat) (q : Int) : Int :=
  let estimate : Int := ((m.log2 : Int) + q) * 30103 / 100000
  let exceeds (k : Int) : Bool := compareScaled m q 1 (k + 1) == .lt
  if exceeds (estimate - 1) then estimate - 1
  else if exceeds estimate then estimate
  else estimate + 1

/-- The interval holds `d * 10 ^ k`. -/
def RoundingInterval.holds (interval : RoundingInterval) (q : Int) (d : Nat) (k : Int) : Bool :=
  let below := compareScaled interval.low (q - 2) d k
  let above := compareScaled interval.high (q - 2) d k
  (below == .lt || (interval.closed && below == .eq)) &&
    (above == .gt || (interval.closed && above == .eq))

/-- The neighbour, on the grid of multiples of `10 ^ k`, that lies in the interval;
of two the nearer, and of two equally near ones the even. -/
def neighbourOnGrid (interval : RoundingInterval) (q k : Int) : Option Nat :=
  let floor :=
    (interval.mid * Nat.pow 2 (q - 2).toNat * Nat.pow 10 (-k).toNat) /
      (Nat.pow 10 k.toNat * Nat.pow 2 (2 - q).toNat)
  let lower := floor != 0 && interval.holds q floor k
  let upper := interval.holds q (floor + 1) k
  if lower && upper then
    match compareScaled (2 * interval.mid) (q - 2) (2 * floor + 1) k with
    | .lt => some floor
    | .gt => some (floor + 1)
    | .eq => some (if floor % 2 = 0 then floor else floor + 1)
  else if lower then some floor
  else if upper then some (floor + 1)
  else none

/-- The digits with the fewest places, tried from `places` on. -/
def shortestFrom (interval : RoundingInterval) (q lead : Int) : Nat → Nat → Decimal
  | 0, _ => ⟨interval.mid, q⟩
  | fuel + 1, places =>
    let k := lead + 1 - places
    match neighbourOnGrid interval q k with
    | some d => Decimal.trim ⟨d, k⟩
    | none => shortestFrom interval q lead fuel (places + 1)

/-- The shortest digits of a finite number's magnitude; zero has the digit zero. -/
def shortest (d : Double) : Decimal :=
  if d.isZero then ⟨0, 0⟩
  else
    let (m, q) := d.magnitude
    shortestFrom (roundingInterval m q) q (leadingDigit m q) 17 1

end Double

end Entailment
