import Entailment.Number.Shortest

/-!
# Laying out decimal digits

A `FloatLayout` holds the decisions of one number format: which magnitudes are
written without an exponent, whether a whole number keeps its `.0`, and how an
exponent is signed.  `FloatLayout.render` writes a number's shortest digits so.
-/

namespace Entailment

structure FloatLayout where
  /-- Whether a number whose leading digit has this exponent is written without one. -/
  positional : Int → Bool
  /-- Whether a whole number ends in `.0`. -/
  keepsPoint : Bool
  /-- Whether a positive exponent has a sign. -/
  signsExponent : Bool

namespace FloatLayout

/-- Never an exponent, and no point in a whole number: the lexical form of a literal. -/
def lexical : FloatLayout := ⟨fun _ => true, false, false⟩

/-- An exponent below `1e-4` and from `1e16` on: the text of a term. -/
def display : FloatLayout := ⟨fun e => decide (-4 ≤ e ∧ e ≤ 15), true, false⟩

/-- An exponent below `1e-5` and from `1e16` on, with a sign: the form in a document. -/
def document : FloatLayout := ⟨fun e => decide (-5 ≤ e ∧ e ≤ 15), true, true⟩

def zeros (n : Nat) : String := String.ofList (List.replicate n '0')

/-- The digits without an exponent, the point standing `point` places after the first. -/
def renderPositional (layout : FloatLayout) (digits : List Char) (point : Int) : String :=
  if point ≤ 0 then "0." ++ zeros (-point).toNat ++ String.ofList digits
  else
    let whole := point.toNat
    if digits.length ≤ whole then
      String.ofList digits ++ zeros (whole - digits.length) ++ (if layout.keepsPoint then ".0" else "")
    else String.ofList (digits.take whole) ++ "." ++ String.ofList (digits.drop whole)

/-- One digit, the others after a point, and the exponent of the leading digit. -/
def renderExponent (layout : FloatLayout) (digits : List Char) (lead : Int) : String :=
  let mantissa :=
    match digits with
    | first :: second :: rest => String.ofList (first :: '.' :: second :: rest)
    | _ => String.ofList digits
  let sign := if lead < 0 then "-" else if layout.signsExponent then "+" else ""
  mantissa ++ "e" ++ sign ++ toString lead.natAbs

def renderDecimal (layout : FloatLayout) (d : Decimal) : String :=
  if d.digits = 0 then (if layout.keepsPoint then "0.0" else "0")
  else
    let digits := Nat.toDigits 10 d.digits
    let point := d.exponent + digits.length
    if layout.positional (point - 1) then layout.renderPositional digits point
    else layout.renderExponent digits (point - 1)

def render (layout : FloatLayout) (d : Double) : String :=
  if d.isNaN then "NaN"
  else
    let sign := if d.isNegative then "-" else ""
    if d.isInfinite then sign ++ "inf" else sign ++ layout.renderDecimal d.shortest

end FloatLayout

end Entailment
