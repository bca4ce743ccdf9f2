import BinarySplitting.Linear.Mat

/-!
# Mixed-binary problems

A problem asks for a binary vector `x` and a continuous vector `u` that minimise
`x'Qx + a'x + u'Pu + c'u + constant` subject to `Gx = b`, `Ax ≤ r`, `Cx + Du ≤ d` and bounds on
`u`. Quadratic forms have no factor one half. A point is judged by its objective value and by the
total violation of its constraints.
-/

namespace BinarySplitting

/-- A mixed-binary problem; any data, also of shapes that do not fit together. The fields are `Q`, `a`, `P`,
`c`, the constant, `G`, `b`, `A`, `r`, `C`, `D`, `d` and the bounds on `u`, in this order; the numbers of variables
and rows are the sizes of `a`, `c`, `b`, `r` and `d`. A list of names may be empty. -/
structure Problem (α : Type) where
  binaryQuadratic : Mat α
  binaryLinear : Vec α
  continuousQuadratic : Mat α
  continuousLinear : Vec α
  constant : α
  equalityRows : Mat α
  equalityRhs : Vec α
  inequalityRows : Mat α
  inequalityRhs : Vec α
  couplingBinary : Mat α
  couplingContinuous : Mat α
  couplingRhs : Vec α
  lower : Vec α
  upper : Vec α
  binaryNames : List String
  continuousNames : List String

namespace Problem

variable {α : Type}

/-! ## Sizes -/

def numBinary (p : Problem α) : Nat := p.binaryLinear.size

def numContinuous (p : Problem α) : Nat := p.continuousLinear.size

def numEqualities (p : Problem α) : Nat := p.equalityRhs.size

def numInequalities (p : Problem α) : Nat := p.inequalityRhs.size

def numCoupling (p : Problem α) : Nat := p.couplingRhs.size

variable [Scalar α]

/-! ## The objective -/

def binaryObjective (p : Problem α) (x : Vec α) : α :=
  p.binaryQuadratic.quadraticForm x + p.binaryLinear.dot x

/-- The continuous part of the objective, zero without continuous variables. -/
def continuousObjective (p : Problem α) (u : Vec α) : α :=
  if p.numContinuous = 0 then 0.0
  else p.continuousQuadratic.quadraticForm u + p.continuousLinear.dot u

def objective (p : Problem α) (x u : Vec α) : α :=
  p.binaryObjective x + p.continuousObjective u + p.constant

/-! ## Violation -/

/-- The left-hand sides of the coupling rows. -/
def couplingLhs (p : Problem α) (x u : Vec α) : Vec α :=
  let lhs := p.couplingBinary.mulVec x
  if p.numContinuous = 0 then lhs else lhs + p.couplingContinuous.mulVec u

def equalityViolation (p : Problem α) (x : Vec α) : α :=
  if p.numEqualities = 0 then 0.0 else (p.equalityRows.mulVec x - p.equalityRhs).absSum

/-- How far the inequalities on the binary variables are missed. -/
def inequalityViolation (p : Problem α) (x : Vec α) : α :=
  if p.numInequalities = 0 then 0.0 else (p.inequalityRows.mulVec x - p.inequalityRhs).excess

/-- How far the coupling rows are missed. -/
def couplingViolation (p : Problem α) (x u : Vec α) : α :=
  if p.numCoupling = 0 then 0.0 else (p.couplingLhs x u - p.couplingRhs).excess

/-- How far the bounds of the continuous variables are missed. -/
def boundViolation (p : Problem α) (u : Vec α) : α :=
  if p.numContinuous = 0 then 0.0 else (p.lower - u).excess + (u - p.upper).excess

def violation (p : Problem α) (x u : Vec α) : α :=
  p.equalityViolation x + p.inequalityViolation x + p.couplingViolation x u + p.boundViolation u

/-- The total violation is at most the tolerance. -/
def isFeasible (p : Problem α) (x u : Vec α) (tolerance : α) : Bool :=
  decide (p.violation x u ≤ tolerance)

end Problem

end BinarySplitting
