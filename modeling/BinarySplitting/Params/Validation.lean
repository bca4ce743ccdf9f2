import BinarySplitting.Params.Basic
import BinarySplitting.Decimal.Places

/-!
# Admissible parameters

Parameters are accepted when every requirement holds. The requirements stand in a fixed order and
the first that fails gives the defect. A requirement fails on an undefined value; upper limits are
stated only where a value must be finite.
-/

namespace BinarySplitting.Params

inductive Requirement where
  | rhoMinPositive
  | rhoMaxAboveMin
  | rhoInitialPositive
  | rhoInitialWithin
  | betaNonnegative
  | equalityWeightNonnegative
  | maxIterationsPositive
  | tolerancePositive
  | rhoGrowthAboveOne
  | raiseFactorAboveOne
  | lowerFactorAboveOne
  | balanceRatioAboveOne
  | dualTolerancePositive
  | meritWeightNonnegative
  | feasibilityTolerancePositive
  | timeLimitPositive
deriving DecidableEq

/-- The field a requirement is about, and the rule for it. -/
def Requirement.text : Requirement → String × String
  | .rhoMinPositive => ("rho_min", "> 0")
  | .rhoMaxAboveMin => ("rho_max", ">= rho_min")
  | .rhoInitialPositive => ("rho_initial", "> 0")
  | .rhoInitialWithin => ("rho_initial", "within [rho_min, rho_max]")
  | .betaNonnegative => ("beta", ">= 0")
  | .equalityWeightNonnegative => ("factor_c", ">= 0")
  | .maxIterationsPositive => ("maxiter", "> 0")
  | .tolerancePositive => ("tol", "> 0")
  | .rhoGrowthAboveOne => ("rho_growth", "> 1")
  | .raiseFactorAboveOne => ("tau_incr", "> 1")
  | .lowerFactorAboveOne => ("tau_decr", "> 1")
  | .balanceRatioAboveOne => ("mu_res", "> 1")
  | .dualTolerancePositive => ("dual_tol", "> 0")
  | .meritWeightNonnegative => ("mu_merit", ">= 0")
  | .feasibilityTolerancePositive => ("feasibility_tol", "> 0")
  | .timeLimitPositive => ("max_time_seconds", "> 0")

/-- A value that a requirement is about. -/
inductive Quantity (α : Type) where
  | real (value : α)
  | count (value : Int)

/-- The text of a value: six decimal places, also for a count. -/
def Quantity.text : Quantity Float → String
  | .real value => Decimal.fixed 6 value
  | .count value => value.repr ++ ".000000"

/-- A requirement on given parameters: whether it holds, and the value in question. -/
structure Check (α : Type) where
  requirement : Requirement
  holds : Bool
  value : Quantity α

/-- Why parameters are not accepted: a requirement and the value that fails it. -/
structure Defect (α : Type) where
  requirement : Requirement
  value : Quantity α

def Defect.message (d : Defect Float) : String :=
  let (field, rule) := d.requirement.text
  "AdmmParams: " ++ field ++ " must be " ++ rule ++ ", got " ++ d.value.text

variable {α : Type} [Scalar α]

/-- A value that is finite and not negative. -/
def isWeight (a : α) : Bool := decide (0.0 ≤ a) && Scalar.isFinite a

def checks (p : Params α) : List (Check α) :=
  [⟨.rhoMinPositive, decide (0.0 < p.rhoMin), .real p.rhoMin⟩,
   ⟨.rhoMaxAboveMin, decide (p.rhoMin ≤ p.rhoMax), .real p.rhoMax⟩,
   ⟨.rhoInitialPositive, decide (0.0 < p.rhoInitial), .real p.rhoInitial⟩,
   ⟨.rhoInitialWithin, decide (p.rhoMin ≤ p.rhoInitial) && decide (p.rhoInitial ≤ p.rhoMax),
    .real p.rhoInitial⟩,
   ⟨.betaNonnegative, isWeight p.beta, .real p.beta⟩,
   ⟨.equalityWeightNonnegative, isWeight p.equalityWeight, .real p.equalityWeight⟩,
   ⟨.maxIterationsPositive, decide (0 < p.maxIterations), .count p.maxIterations⟩,
   ⟨.tolerancePositive, decide (0.0 < p.tolerance), .real p.tolerance⟩,
   ⟨.rhoGrowthAboveOne, decide (1.0 < p.rhoGrowth), .real p.rhoGrowth⟩,
   ⟨.raiseFactorAboveOne, decide (1.0 < p.raiseFactor), .real p.raiseFactor⟩,
   ⟨.lowerFactorAboveOne, decide (1.0 < p.lowerFactor), .real p.lowerFactor⟩,
   ⟨.balanceRatioAboveOne, decide (1.0 < p.balanceRatio), .real p.balanceRatio⟩,
   ⟨.dualTolerancePositive, decide (0.0 < p.dualTolerance), .real p.dualTolerance⟩,
   ⟨.meritWeightNonnegative, decide (0.0 ≤ p.meritWeight), .real p.meritWeight⟩,
   ⟨.feasibilityTolerancePositive, decide (0.0 < p.feasibilityTolerance),
    .real p.feasibilityTolerance⟩,
   ⟨.timeLimitPositive, decide (0.0 < p.timeLimit), .real p.timeLimit⟩]

/-- Accepts admissible parameters, else gives the first defect. -/
def validate (p : Params α) : Except (Defect α) Unit :=
  match p.checks.find? fun c => !c.holds with
  | some c => .error ⟨c.requirement, c.value⟩
  | none => .ok ()

theorem validate_eq_ok_iff (p : Params α) : p.validate = .ok () ↔ ∀ c ∈ p.checks, c.holds := by
  unfold validate
  constructor
  · intro h
    split at h
    · simp at h
    · next none => simpa using List.find?_eq_none.1 none
  · intro h
    rw [List.find?_eq_none.2 (by simpa using h)]

end BinarySplitting.Params
