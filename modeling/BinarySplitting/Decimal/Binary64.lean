import BinarySplitting.Decimal.Quotient

/-!
# Machine numbers as exact values

The bits of a machine number say which real number it is; and a decimal number, given by its digits
and a power of ten, is read as the nearest machine number.
-/

namespace BinarySplitting.Decimal

/-- What a machine number stands for. -/
inductive Binary64 where
  | undefined
  | infinite (negative : Bool)
  /-- The quotient `num / den` with a sign; zero has a sign too. -/
  | finite (negative : Bool) (num den : Nat)

/-- The value that the bits of a machine number say. -/
def Binary64.ofFloat (x : Float) : Binary64 :=
  let bits := x.toBits.toNat
  let negative := bits >>> 63 = 1
  let biased := (bits >>> 52) % 2048
  let fraction := bits % (1 <<< 52)
  if biased = 2047 then
    if fraction = 0 then .infinite negative else .undefined
  else
    let mantissa := if biased = 0 then fraction else fraction + (1 <<< 52)
    let shift := max biased 1
    if 1075 ≤ shift then .finite negative (mantissa <<< (shift - 1075)) 1
    else .finite negative mantissa (1 <<< (1075 - shift))

/-- The machine number nearest to `digits * 10 ^ power`, infinite past the greatest one. Powers far
outside the range are settled by the exponent of the leading digit. -/
def read (digits : Nat) (power : Int) : Float :=
  let lead := (digitCount digits : Int) + power
  if digits = 0 ∨ lead < -330 then 0.0
  else if 330 < lead then 1.0 / 0.0
  else
    match power with
    | .ofNat k => Float.ofScientific digits false k
    | .negSucc k => Float.ofScientific digits true (k + 1)

end BinarySplitting.Decimal
