import BinarySplitting.Decimal.Binary64

/-!
# Numbers with a given precision

The text of a machine number with a fixed number of decimal places, in scientific notation, or with
a number of significant digits. The exact value is rounded, a tie goes to the even digit, and zero
keeps its sign.
-/

namespace BinarySplitting.Decimal

/-- A natural number with at least `width` digits. -/
def padded (width n : Nat) : String :=
  let s := n.repr
  "".pushn '0' (width - s.length) ++ s

def signed (negative : Bool) (s : String) : String := if negative then "-" ++ s else s

/-- A magnitude counted in units of the last of `places` decimal places. -/
def withPoint (places units : Nat) : String :=
  if places = 0 then units.repr
  else (units / tenTo places).repr ++ "." ++ padded places (units % tenTo places)

/-- Digits with a point after the first, and the exponent with a sign and at least two digits. -/
def withExponent (digits : String) (e : Int) : String :=
  let mantissa := if digits.length ≤ 1 then digits else
    String.ofList (digits.toList.take 1) ++ "." ++ String.ofList (digits.toList.drop 1)
  mantissa ++ (if e < 0 then "e-" else "e+") ++ padded 2 e.natAbs

/-- The text with a fixed number of decimal places. -/
def fixed (places : Nat) (x : Float) : String :=
  match Binary64.ofFloat x with
  | .undefined => "nan"
  | .infinite negative => signed negative "inf"
  | .finite negative num den =>
    signed negative (withPoint places (roundDiv (num * tenTo places) den))

/-- The text in scientific notation with a number of decimal places. -/
def scientific (places : Nat) (x : Float) : String :=
  match Binary64.ofFloat x with
  | .undefined => "nan"
  | .infinite negative => signed negative "inf"
  | .finite negative num den =>
    let (digits, e) := if num = 0 then (0, 0) else significant num den places
    signed negative (withExponent (padded (places + 1) digits) e)

/-- Digits without zeros at the end, at least one digit. -/
def dropTrailingZeros (digits : String) : String :=
  match (digits.toList.reverse.dropWhile (· = '0')).reverse with
  | [] => "0"
  | ds => String.ofList ds

/-- The text with at most `places + 1` significant digits, positional for exponents from -4 up to
`places`; zeros after the last digit are not written. -/
def general (places : Nat) (x : Float) : String :=
  match Binary64.ofFloat x with
  | .undefined => "nan"
  | .infinite negative => signed negative "inf"
  | .finite negative num den =>
    let (value, e) := if num = 0 then (0, 0) else significant num den places
    let digits := dropTrailingZeros (padded (places + 1) value)
    let text :=
      if e < -4 ∨ (places : Int) < e then withExponent digits e
      else if e < 0 then "0." ++ "".pushn '0' ((-e).toNat - 1) ++ digits
      else
        let whole := e.toNat + 1
        let ds := digits.toList
        if ds.length ≤ whole then digits ++ "".pushn '0' (whole - ds.length)
        else String.ofList (ds.take whole) ++ "." ++ String.ofList (ds.drop whole)
    signed negative text

end BinarySplitting.Decimal
