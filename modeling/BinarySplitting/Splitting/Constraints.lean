import BinarySplitting.Decimal.Places
import BinarySplitting.Failure
import BinarySplitting.Splitting.Program

/-!
# Constraints of a program

The rows of a program on top of its variables: one matrix, the rows above the identity, with lower
and upper bounds for all of them. A program is accepted when its parts fit together and its data
are finite. A direction in the space of the constraints can certify that no point is feasible.
-/

namespace BinarySplitting.Splitting

/-- Bounds on the product of a matrix with the unknown vector. -/
structure Constraints (α : Type) where
  rows : Mat α
  lower : Vec α
  upper : Vec α

/-- Why a program is not solved. -/
inductive Failure (α : Type) where
  | quadraticShape (rows cols dimension : Nat)
  | boundSizes (dimension : Nat)
  | rowShapes (rows : Nat)
  | notFinite
  | crossedBounds (index : Nat)
  | factorization
  /-- The system has none after a change of the step size. -/
  | refactorization
  | timeLimit (limit : α) (iteration : Nat)
  | certificate (iteration : Nat)
  | notConverged (iterations : Int) (primal dual : α)

def Failure.kind {α : Type} : Failure α → FailureKind
  | .crossedBounds _ | .certificate _ => .infeasible
  | .timeLimit _ _ => .cancelled
  | _ => .failed

def Failure.message : Failure Float → String
  | .quadraticShape rows cols dimension =>
    "QpAdmmSolver: H is " ++ rows.repr ++ "x" ++ cols.repr ++ ", expected " ++ dimension.repr ++
      "x" ++ dimension.repr
  | .boundSizes dimension =>
    "QpAdmmSolver: variable bounds do not match dimension " ++ dimension.repr
  | .rowShapes rows =>
    "QpAdmmSolver: constraint rows do not match A (" ++ rows.repr ++ " rows expected)"
  | .notFinite => "QpAdmmSolver: non-finite problem data"
  | .crossedBounds index => "QpAdmmSolver: bound " ++ index.repr ++ " has lower > upper"
  | .factorization => "QpAdmmSolver: KKT factorization failed"
  | .refactorization => "QpAdmmSolver: KKT refactorization failed"
  | .timeLimit limit iteration =>
    "QpAdmmSolver: time limit of " ++ Decimal.fixed 6 limit ++ " s reached at iteration " ++
      iteration.repr
  | .certificate iteration =>
    "QpAdmmSolver: primal infeasibility certificate at iteration " ++ iteration.repr
  | .notConverged iterations primal dual =>
    "QpAdmmSolver: no convergence in " ++ iterations.repr ++ " iterations (r_prim=" ++
      Decimal.fixed 6 primal ++ ", r_dual=" ++ Decimal.fixed 6 dual ++ ")"

variable {α : Type} [Scalar α]

/-- Accepts a program whose parts fit together and whose data are finite. -/
def check (p : Program α) : Except (Failure α) Unit :=
  let n := p.dimension
  let m := p.numRows
  if !p.quadratic.hasShape n n then
    .error (.quadraticShape p.quadratic.rows p.quadratic.cols n)
  else if p.lower.size ≠ n ∨ p.upper.size ≠ n then .error (.boundSizes n)
  else if p.rowUpper.size ≠ m ∨ (0 < m ∧ !p.rows.hasShape m n) then .error (.rowShapes m)
  else if !p.quadratic.allFinite ∨ !p.linear.allFinite ∨ (0 < m ∧ !p.rows.allFinite) then
    .error .notFinite
  else .ok ()

namespace Constraints

/-- The constraints of a program: its rows, then its variables. -/
def ofProgram (p : Program α) : Constraints α :=
  let n := p.dimension
  let m := p.numRows
  { rows := Mat.ofFn (m + n) n fun i j =>
      if i < m then p.rows i j else if i - m = j then 1.0 else 0.0
    lower := p.rowLower ++ p.lower
    upper := p.rowUpper ++ p.upper }

def size (c : Constraints α) : Nat := c.rows.rows

/-- The first constraint whose lower bound is above its upper bound. -/
def crossed? (c : Constraints α) : Option Nat :=
  (List.range c.size).find? fun i => decide (c.upper i < c.lower i)

/-- The bound that a multiplier with index `i` leans on: the upper one if it is positive, the lower
one if it is negative. -/
def bound? (c : Constraints α) (y : Vec α) (i : Nat) : Option α :=
  if 0.0 < y i then some (c.upper i) else if y i < 0.0 then some (c.lower i) else none

/-- The sum of the bounds that a direction leans on, each times its multiplier, over the first
indices; none if one of them is infinite. -/
def support? (c : Constraints α) (y : Vec α) : Nat → Option α
  | 0 => some 0.0
  | i + 1 => do
    let total ← c.support? y i
    match c.bound? y i with
    | none => return total
    | some b => if Scalar.isInfinite b then none else return total + b * y i

/-- A direction certifies that no point is feasible: it is not almost zero, it leans on finite
bounds, no point can move along it, and the bounds lie apart. -/
def isInfeasibleAlong (c : Constraints α) (y : Vec α) (tolerance : α) : Bool :=
  let size := y.maxNorm
  if size ≤ 1e-30 then false
  else
    match c.support? y y.size with
    | none => false
    | some support =>
      decide ((c.rows.transpose.mulVec y).maxNorm ≤ tolerance * size) &&
        decide (support < -tolerance * size)

end Constraints

end BinarySplitting.Splitting
