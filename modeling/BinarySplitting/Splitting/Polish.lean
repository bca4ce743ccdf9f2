import BinarySplitting.Splitting.Iteration

/-!
# Refining a point

At the end of the iteration the signs of the multipliers say which bounds are active. The program
with these bounds as equations is a linear system; its solution replaces the point if the
multipliers have the right signs, the bounds hold and the gradient vanishes, all up to the
tolerance.
-/

namespace BinarySplitting.Splitting

/-- The bounds that are taken as equations. -/
structure ActiveSet where
  lower : List Nat
  upper : List Nat

/-- All active constraints, the lower ones first. -/
def ActiveSet.all (a : ActiveSet) : List Nat := a.lower ++ a.upper

/-- A refined point: the unknown vector and the multipliers of the active constraints. -/
structure Polished (α : Type) where
  w : Vec α
  multipliers : Vec α

variable {α : Type} [Scalar α]

def Point.atLower (c : Constraints α) (p : Point α) (i : Nat) : Bool :=
  decide (p.z i - c.lower i < -p.y i)

def Point.atUpper (c : Constraints α) (p : Point α) (i : Nat) : Bool :=
  decide (c.upper i - p.z i < p.y i)

/-- The active constraints at a point; one at both bounds counts as lower. -/
def Point.activeSet (c : Constraints α) (p : Point α) : ActiveSet where
  lower := (List.range c.size).filter (p.atLower c)
  upper := (List.range c.size).filter fun i => !p.atLower c i && p.atUpper c i

/-- The right-hand side of an active constraint. -/
def ActiveSet.bound (a : ActiveSet) (c : Constraints α) (k : Nat) : α :=
  let i := a.all.getD k 0
  if k < a.lower.length then c.lower i else c.upper i

/-- The matrix of the optimality conditions with the active constraints as equations. -/
def ActiveSet.matrix (a : ActiveSet) (s : System α) : Mat α :=
  let n := s.program.dimension
  let size := n + a.all.length
  Mat.ofFn size size fun i j =>
    if i < n then
      if j < n then s.program.quadratic i j else s.constraints.rows (a.all.getD (j - n) 0) i
    else if j < n then s.constraints.rows (a.all.getD (i - n) 0) j
    else 0.0

/-- The right-hand side of the optimality conditions. -/
def ActiveSet.rhs (a : ActiveSet) (s : System α) : Vec α :=
  -s.program.linear ++ Vec.ofFn a.all.length (a.bound s.constraints)

/-- The matrix with its diagonal moved away from zero, up for the unknowns and down for the
multipliers. -/
def ActiveSet.regularized (a : ActiveSet) (s : System α) (delta : α) : Mat α :=
  let n := s.program.dimension
  let m := a.matrix s
  Mat.ofFn m.rows m.cols fun i j =>
    if i = j then (if i < n then m i j + delta else m i j - delta) else m i j

/-- Corrects a solution by solving for what it misses, a number of times. -/
def correct (solver : LinearSolver α) (m : Mat α) (rhs : Vec α) : Nat → Vec α → Vec α
  | 0, v => v
  | k + 1, v => correct solver m rhs k (v + solver.solve (rhs - m.mulVec v))

def ActiveSet.solve (general : Mat α → LinearSolver α) (a : ActiveSet) (s : System α)
    (settings : Settings α) : Vec α :=
  let solver := general (a.regularized s settings.polishDelta)
  let rhs := a.rhs s
  correct solver (a.matrix s) rhs settings.polishSteps.toNat (solver.solve rhs)

/-- The multipliers have the right signs: not above the tolerance at lower bounds, not below its
negative at upper ones. -/
def ActiveSet.signsFit (a : ActiveSet) (tolerance : α) (multipliers : Vec α) : Bool :=
  (List.range a.all.length).all fun k =>
    if k < a.lower.length then !decide (tolerance < multipliers k)
    else !decide (multipliers k < -tolerance)

def ActiveSet.polish? (general : Mat α → LinearSolver α) (a : ActiveSet) (s : System α)
    (settings : Settings α) : Option (Polished α) :=
  let n := s.program.dimension
  let v := a.solve general s settings
  let refined : Polished α := ⟨v.slice 0 n, v.slice n a.all.length⟩
  let tolerance := settings.polishTolerance
  let scale := 1.0 + refined.w.maxNorm + s.program.linear.maxNorm
  let violation := s.program.maxViolation refined.w
  let stationarity := (((a.matrix s).mulVec v).slice 0 n - (a.rhs s).slice 0 n).maxNorm
  if v.allFinite && a.signsFit tolerance refined.multipliers &&
      decide (violation ≤ tolerance * scale) && decide (stationarity ≤ tolerance * scale) then
    some refined
  else none

end BinarySplitting.Splitting
