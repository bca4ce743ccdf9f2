/-!
# Quotients in decimal

A positive quotient of two natural numbers, rounded to the nearest integer or to a number of
significant digits. A tie goes to the even neighbour. The main statement is that the rounded
quotient lies within half a unit of the exact one.
-/

namespace BinarySplitting.Decimal

/-- The integer nearest to `num / den`; of two nearest ones the even one. -/
def roundDiv (num den : Nat) : Nat :=
  let q := num / den
  let r := num % den
  if 2 * r < den then q
  else if den < 2 * r then q + 1
  else if q % 2 = 0 then q else q + 1

theorem roundDiv_near {num den : Nat} (h : 0 < den) :
    2 * (roundDiv num den * den) ≤ 2 * num + den ∧
      2 * num ≤ 2 * (roundDiv num den * den) + den := by
  have exact : den * (num / den) + num % den = num := Nat.div_add_mod num den
  have below : num % den < den := Nat.mod_lt num h
  have up : (num / den + 1) * den = num / den * den + den := Nat.succ_mul _ _
  have swap : den * (num / den) = num / den * den := Nat.mul_comm _ _
  unfold roundDiv
  dsimp only
  split
  · omega
  · split
    · omega
    · split <;> omega

def tenTo (k : Nat) : Nat := Nat.pow 10 k

/-- `num / den` multiplied by a power of ten, as a quotient. -/
def scaleByTen (num den : Nat) (power : Int) : Nat × Nat :=
  match power with
  | .ofNat k => (num * tenTo k, den)
  | .negSucc k => (num, den * tenTo (k + 1))

def digitCount (n : Nat) : Nat := n.repr.length

/-- The exponent of the leading decimal digit of `num / den`, both positive: the greatest power of
ten that is not above it. The digit counts leave two candidates. -/
def leadingExponent (num den : Nat) : Int :=
  let guess := (digitCount num : Int) - digitCount den
  let (n, d) := scaleByTen num den (-guess)
  if d ≤ n then guess else guess - 1

/-- The positive quotient rounded to `places + 1` significant digits: the digits as one number and
the exponent of the leading one. -/
def significant (num den places : Nat) : Nat × Int :=
  let e := leadingExponent num den
  let (n, d) := scaleByTen num den (places - e)
  let digits := roundDiv n d
  if digits = tenTo (places + 1) then (tenTo places, e + 1) else (digits, e)

end BinarySplitting.Decimal
