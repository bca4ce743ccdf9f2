import BinarySplitting.Decimal.Places
import BinarySplitting.Scalar

/-!
# Settings of the program solver

The step size and how it adapts, the tolerances, the limits and the final refinement. Only the
settings that the iteration itself needs are checked.
-/

namespace BinarySplitting.Splitting

/-- The settings of the program solver. The residuals are compared with `absolute` and `relative`, certificates
with `infeasibility`; the step size is changed only by more than `adaptiveFactor`, and `polishDelta` regularises the
system of the refinement. The time limit is in seconds. -/
structure Settings (α : Type) where
  rho : α
  rhoMin : α
  rhoMax : α
  /-- The weight that keeps a step near the last point. -/
  sigma : α
  /-- The relaxation of a step. -/
  alpha : α
  maxIterations : Int
  checkInterval : Int
  absolute : α
  relative : α
  infeasibility : α
  adaptive : Bool
  adaptiveFactor : α
  polish : Bool
  polishDelta : α
  polishSteps : Int
  polishTolerance : α
  timeLimit : α

inductive Settings.Defect (α : Type) where
  | stepSizes
  | relaxation (alpha : α)
  | counts

def Settings.Defect.message : Settings.Defect Float → String
  | .stepSizes => "QpAdmmSolver: rho and sigma must be > 0"
  | .relaxation alpha =>
    "QpAdmmSolver: alpha must be in (0, 2), got " ++ Decimal.fixed 6 alpha
  | .counts => "QpAdmmSolver: max_iter and check_interval must be >= 1"

namespace Settings

variable {α : Type} [Scalar α]

/-- The settings where nothing else is said. -/
def standard : Settings α where
  rho := 0.1
  rhoMin := 1e-6
  rhoMax := 1e6
  sigma := 1e-6
  alpha := 1.6
  maxIterations := 20000
  checkInterval := 10
  absolute := 1e-9
  relative := 1e-9
  infeasibility := 1e-6
  adaptive := true
  adaptiveFactor := 5.0
  polish := true
  polishDelta := 1e-9
  polishSteps := 5
  polishTolerance := 1e-8
  timeLimit := Scalar.infinity

/-- Accepts usable settings, else gives the first defect. Undefined numbers are not refused. -/
def validate (s : Settings α) : Except (Defect α) Unit :=
  if s.rho ≤ 0.0 ∨ s.sigma ≤ 0.0 then .error .stepSizes
  else if s.alpha ≤ 0.0 ∨ 2.0 ≤ s.alpha then .error (.relaxation s.alpha)
  else if s.maxIterations < 1 ∨ s.checkInterval < 1 then .error .counts
  else .ok ()

/-- The greatest number of iterations, as a count. -/
def iterations (s : Settings α) : Nat := s.maxIterations.toNat

/-- An iteration is checked: one in each interval, and the last. -/
def isChecked (s : Settings α) (iteration : Nat) : Bool :=
  iteration % s.checkInterval.toNat == 0 || iteration + 1 == s.iterations

end Settings

end BinarySplitting.Splitting
