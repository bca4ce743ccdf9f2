import BinarySplitting.Linear.Mat

/-!
# Convex quadratic programs

A program asks for a vector `w` that minimises `½ w'Hw + f'w + constant` subject to bounds on the
rows of `Aw` and on `w`. An infinite bound marks a side without a limit.
-/

namespace BinarySplitting

structure Program (α : Type) where
  quadratic : Mat α
  /-- `f`, the linear form; its size is the number of variables. -/
  linear : Vec α
  constant : α
  rows : Mat α
  /-- The lower bounds of the rows; their number is the number of rows. -/
  rowLower : Vec α
  rowUpper : Vec α
  lower : Vec α
  upper : Vec α

namespace Program

variable {α : Type}

def dimension (p : Program α) : Nat := p.linear.size

def numRows (p : Program α) : Nat := p.rowLower.size

variable [Scalar α]

def objective (p : Program α) (w : Vec α) : α :=
  0.5 * p.quadratic.quadraticForm w + p.linear.dot w + p.constant

/-- The greatest amount by which a vector is past a pair of bounds, at least `least`. -/
def worstExcess (least : α) (v lower upper : Vec α) : α :=
  Scalar.larger (Scalar.larger least (lower - v).maximum) (v - upper).maximum

/-- The greatest amount by which a row or a variable is past a bound, zero at a feasible vector. -/
def maxViolation (p : Program α) (w : Vec α) : α :=
  let rows := if p.numRows = 0 then 0.0 else worstExcess 0.0 (p.rows.mulVec w) p.rowLower p.rowUpper
  if p.dimension = 0 then rows else worstExcess rows w p.lower p.upper

end Program

end BinarySplitting
