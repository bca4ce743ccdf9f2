import BinarySplitting.Scalar

/-!
# Parameters

The parameters of the splitting method: the penalty and how it changes, the weights of the slack
and of the equalities, the stopping tests and the limits.
-/

namespace BinarySplitting

/-- How the penalty changes after a pass. -/
inductive PenaltyPolicy where
  | fixed
  | grow
  | residualBalancing
deriving DecidableEq

namespace PenaltyPolicy

def name : PenaltyPolicy → String
  | .fixed => "fixed"
  | .grow => "grow"
  | .residualBalancing => "residual_balancing"

def ofName? (s : String) : Option PenaltyPolicy :=
  if s = "fixed" then some .fixed
  else if s = "grow" then some .grow
  else if s = "residual_balancing" then some .residualBalancing
  else none

theorem ofName?_name (p : PenaltyPolicy) : ofName? p.name = some p := by
  cases p <;> decide

end PenaltyPolicy

/-- The parameters of a run. `beta` and `equalityWeight` weigh the slack and the equalities, `meritWeight` the
violation in the merit; residual balancing acts from the ratio `balanceRatio` of the residuals on, by `raiseFactor`
or `lowerFactor`. The time limit is in seconds. -/
structure Params (α : Type) where
  rhoInitial : α
  beta : α
  equalityWeight : α
  maxIterations : Int
  tolerance : α
  /-- There is a slack between the binary vector and its relaxed copy. -/
  threeBlock : Bool
  policy : PenaltyPolicy
  rhoGrowth : α
  raiseFactor : α
  lowerFactor : α
  balanceRatio : α
  rhoMin : α
  rhoMax : α
  /-- A run has converged only if the dual residual is small as well. -/
  checkDual : Bool
  dualTolerance : α
  meritWeight : α
  feasibilityTolerance : α
  timeLimit : α
  verbose : Bool

/-- The parameters where nothing else is said. -/
def Params.standard {α : Type} [Scalar α] : Params α where
  rhoInitial := 10000.0
  beta := 1000.0
  equalityWeight := 100000.0
  maxIterations := 10
  tolerance := 1e-4
  threeBlock := true
  policy := .grow
  rhoGrowth := 1.1
  raiseFactor := 2.0
  lowerFactor := 2.0
  balanceRatio := 10.0
  rhoMin := 1e-6
  rhoMax := 1e10
  checkDual := false
  dualTolerance := 1e-4
  meritWeight := 1000.0
  feasibilityTolerance := 1e-6
  timeLimit := Scalar.infinity
  verbose := false

end BinarySplitting
