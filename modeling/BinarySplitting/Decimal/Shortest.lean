import BinarySplitting.Decimal.Places

/-!
# The fewest digits that read back

A machine number is written with as few decimal digits as read back to it. For one digit, two
digits and so on, the two neighbours of the exact value among the decimals of that length are
tried, the nearer one first; seventeen digits always suffice.
-/

namespace BinarySplitting.Decimal

/-- The decimals with `places + 1` digits next to `num / den`, the nearer one first, as digits and
the power of ten of the last one. -/
def neighbours (num den places : Nat) : List (Nat × Int) :=
  let power := leadingExponent num den - places
  let (n, d) := scaleByTen num den (-power)
  let below := n / d
  let nearest := roundDiv n d
  if nearest = below then [(below, power), (below + 1, power)]
  else [(below + 1, power), (below, power)]

/-- The shortest decimal that reads as the magnitude `x = num / den`, as digits and the power of
ten of the last one. -/
def shortest (x : Float) (num den : Nat) : Nat × Int :=
  let readsBack := fun (digits, power) => read digits power == x
  ((List.range 17).findSome? fun places => (neighbours num den places).find? readsBack).getD (0, 0)

/-- The layout of `digits` with the decimal point after the first `point` of them: positional while
the point is not far from the digits, else scientific; a positional number has a digit on both
sides of its point. -/
def layOut (digits : String) (point : Int) : String :=
  let k := digits.length
  let ds := digits.toList
  if (k : Int) ≤ point ∧ point ≤ 15 then
    digits ++ "".pushn '0' (point.toNat - k) ++ ".0"
  else if 0 < point ∧ point ≤ 15 then
    String.ofList (ds.take point.toNat) ++ "." ++ String.ofList (ds.drop point.toNat)
  else if -4 < point ∧ point ≤ 0 then
    "0." ++ "".pushn '0' (-point).toNat ++ digits
  else withExponent digits (point - 1)

/-- The text of a finite machine number with the fewest digits that read back; not a number and the
infinities have none. -/
def minimal? (x : Float) : Option String :=
  match Binary64.ofFloat x with
  | .undefined | .infinite _ => none
  | .finite negative num den =>
    if num = 0 then some (signed negative "0.0")
    else
      let (value, power) := shortest x.abs num den
      let digits := value.repr
      let point := (digits.length : Int) + power
      some (signed negative (layOut (dropTrailingZeros digits) point))

end BinarySplitting.Decimal
