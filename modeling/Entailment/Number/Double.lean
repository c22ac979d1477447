/-!
# Doubles as bit patterns

A binary64 number is kept as its bits, so that two numbers are the same term
exactly when their bits agree: the two zeros differ, and a NaN equals itself.
Arithmetic goes through the machine's doubles; `Double.nearest` rounds an exact
quotient of naturals, and is what decimal texts are read with.
-/

namespace Entailment

structure Double where
  bits : UInt64
deriving DecidableEq, Inhabited

namespace Double

def ofFloat (x : Float) : Double := ⟨x.toBits⟩

def toFloat (d : Double) : Float := Float.ofBits d.bits

def ofInt64 (n : Int64) : Double := ofFloat n.toFloat

/-- The biased exponent field. -/
def exponentField (d : Double) : Nat := (d.bits.toNat / Nat.pow 2 52) % Nat.pow 2 11

/-- The fraction field, without the hidden bit. -/
def fractionField (d : Double) : Nat := d.bits.toNat % Nat.pow 2 52

def isNegative (d : Double) : Bool := decide (Nat.pow 2 63 ≤ d.bits.toNat)

def isNaN (d : Double) : Bool := d.exponentField == 2047 && d.fractionField != 0

def isInfinite (d : Double) : Bool := d.exponentField == 2047 && d.fractionField == 0

def isZero (d : Double) : Bool := d.exponentField == 0 && d.fractionField == 0

/-- The quiet NaN that a text names. -/
def nan : Double := ⟨0x7ff8000000000000⟩

/-- The quiet NaN that an operation without a result yields. -/
def undefined : Double := ⟨0xfff8000000000000⟩

def infinity : Double := ⟨0x7ff0000000000000⟩

def zero : Double := ⟨0⟩

def one : Double := ⟨0x3ff0000000000000⟩

def neg (d : Double) : Double := ⟨d.bits ^^^ 0x8000000000000000⟩

def withSign (negative : Bool) (d : Double) : Double := if negative then d.neg else d

/-- A NaN operand is the result, the first one if there are two. -/
def binary (op : Float → Float → Float) (a b : Double) : Double :=
  if a.isNaN then a
  else if b.isNaN then b
  else
    let result := ofFloat (op a.toFloat b.toFloat)
    if result.isNaN then undefined else result

def add (a b : Double) : Double := binary (· + ·) a b

def sub (a b : Double) : Double := binary (· - ·) a b

def mul (a b : Double) : Double := binary (· * ·) a b

def div (a b : Double) : Double := binary (· / ·) a b

/-- The order of the numbers: the zeros are equal and a NaN has no place in it. -/
def compare? (a b : Double) : Option Ordering :=
  if a.isNaN || b.isNaN then none
  else if a.toFloat < b.toFloat then some .lt
  else if b.toFloat < a.toFloat then some .gt
  else some .eq

/-- A finite magnitude is `m * 2 ^ q`; this is the pair `(m, q)`. -/
def magnitude (d : Double) : Nat × Int :=
  if d.exponentField = 0 then (d.fractionField, -1074)
  else (d.fractionField + Nat.pow 2 52, (d.exponentField : Int) - 1075)

/-- The natural nearest to `num / den`, a half going to the even neighbour. -/
def roundHalfEven (num den : Nat) : Nat :=
  let quotient := num / den
  let twice := 2 * (num % den)
  if twice < den || (twice == den && quotient % 2 == 0) then quotient else quotient + 1

/-- `num / den * 2 ^ (-shift)` as a pair of naturals. -/
def scaled (num den : Nat) (shift : Int) : Nat × Nat :=
  if 0 ≤ shift then (num, den * Nat.pow 2 shift.toNat) else (num * Nat.pow 2 (-shift).toNat, den)

/-- The exponent of the leading binary digit of `num / den`, for positive parts. -/
def leadingBit (num den : Nat) : Int :=
  let guess : Int := (num.log2 : Int) - (den.log2 : Int)
  let (n, d) := scaled num den guess
  if d ≤ n then guess else guess - 1

/-- The double nearest to `num / den`, a half going to the even neighbour and an
excess to infinity. -/
def nearest (num den : Nat) : Double :=
  if num = 0 then zero
  else
    let q := max (leadingBit num den - 52) (-1074)
    let (n, d) := scaled num den q
    let pattern := (q + 1074).toNat * Nat.pow 2 52 + roundHalfEven n d
    if 2047 * Nat.pow 2 52 ≤ pattern then infinity else ⟨UInt64.ofNat pattern⟩

end Double

end Entailment
