/-!
# Scalars

The arithmetic in which every numerical definition of the library is written. A scalar type has the
operations and the order of the extended reals with an undefined value; machine numbers are one
instance (`Float`), exact numbers are another. Comparisons with the undefined value are false, so
equality, finiteness and the clamps below are written with `<` and `≤` only.
-/

namespace BinarySplitting

/-- The operations a numerical definition may use, and the value `outside` of an entry that does
not exist. -/
class Scalar (α : Type) extends Add α, Sub α, Mul α, Div α, Neg α, LT α, LE α, OfScientific α where
  sqrt : α → α
  abs : α → α
  /-- The positive infinity, which marks an unbounded side. -/
  infinity : α
  /-- The value read where a vector or a matrix has no entry. -/
  outside : α
  decLt : DecidableLT α
  decLe : DecidableLE α

instance Scalar.decidableLt {α : Type} [Scalar α] (a b : α) : Decidable (a < b) := Scalar.decLt a b

instance Scalar.decidableLe {α : Type} [Scalar α] (a b : α) : Decidable (a ≤ b) := Scalar.decLe a b

/-- Machine numbers; a missing entry reads as not-a-number. -/
instance : Scalar Float where
  sqrt := Float.sqrt
  abs := Float.abs
  infinity := 1.0 / 0.0
  outside := 0.0 / 0.0
  decLt := inferInstance
  decLe := inferInstance

namespace Scalar

variable {α : Type} [Scalar α]

/-! ## Tests -/

/-- Numerical equality: both zeros are equal, the undefined value equals nothing. -/
def same (a b : α) : Bool := decide (a ≤ b) && decide (b ≤ a)

/-- The undefined value is the one that is not below itself. -/
def isUndefined (a : α) : Bool := !decide (a ≤ a)

/-- Neither infinite nor undefined. -/
def isFinite (a : α) : Bool := decide (abs a < infinity)

def isInfinite (a : α) : Bool := decide (infinity ≤ abs a)

/-! ## Bounds -/

/-- The second argument if it is above the first, else the first. -/
def larger (a b : α) : α := if a < b then b else a

/-- The second argument if it is below the first, else the first. -/
def smaller (a b : α) : α := if b < a then b else a

/-- The nearest point of the interval from `lo` to `hi`; the undefined value stays. -/
def clamp (a lo hi : α) : α := if a < lo then lo else if hi < a then hi else a

/-! ## Finite families -/

/-- The sum of the first `n` values, from the left. -/
def sum : Nat → (Nat → α) → α
  | 0, _ => 0.0
  | n + 1, f => sum n f + f n

def greatest : Nat → (Nat → α) → α
  | 0, f => f 0
  | n + 1, f => larger (greatest n f) (f (n + 1))

def least : Nat → (Nat → α) → α
  | 0, f => f 0
  | n + 1, f => smaller (least n f) (f (n + 1))

end Scalar

end BinarySplitting
