import BinarySplitting.Decomposition
import BinarySplitting.Engine.Failure

/-!
# Passes

A pass updates the blocks of an iterate in turn: the binary vector by the binary oracle, the
relaxed copy and the continuous vector by the other oracle or in closed form, then the slack, the
multipliers and the penalty. Answers of the oracles are used only after they have been checked: a
binary vector must have entries near zero or one, which are then set to zero or one, and a
continuous vector must be finite.
-/

namespace BinarySplitting

variable {α σ : Type} [Scalar α]

/-! ## Answers of the oracles -/

/-- How far from zero or one a binary entry may be. -/
def snapTolerance : α := 1e-9

def snap? (a : α) : Option α :=
  if Scalar.abs a ≤ snapTolerance then some 0.0
  else if Scalar.abs (a - 1.0) ≤ snapTolerance then some 1.0
  else none

def Vec.snap? (v : Vec α) : Option (Vec α) :=
  (v.toList.mapM BinarySplitting.snap?).map fun entries => ⟨entries.toArray⟩

/-- The binary vector that an answer gives, for `n` variables. -/
def acceptBinary (n : Nat) : Except (SolverFailure α) (Vec α) → Except (Fault α) (Vec α)
  | .error failure => .error (.solver failure)
  | .ok v =>
    if v.size ≠ n then .error (.size v.size n)
    else
      match v.snap? with
      | some x => .ok x
      | none => .error .entries

/-- The finite vector that an answer gives, for `n` variables. -/
def acceptContinuous (n : Nat) : Except (SolverFailure α) (Vec α) → Except (Fault α) (Vec α)
  | .error failure => .error (.solver failure)
  | .ok v =>
    if v.size ≠ n then .error (.size v.size n)
    else if v.allFinite then .ok v
    else .error .entries

/-! ## The continuous block -/

namespace Decomposition

/-- The relaxed copy and the continuous vector of an iterate, from a vector of the convex
program. -/
def place (d : Decomposition α) (it : Iterate α) (w : Vec α) : Iterate α :=
  let nz := d.numRelaxed
  let l := d.problem.numContinuous
  { it with
    z := if nz = 0 then it.z else (w.slice 0 nz).withinUnit
    u := if l = 0 then it.u else w.slice nz l }

/-- The iterate before the convex program is solved: a relaxed copy in closed form is known. -/
def relax (d : Decomposition α) (it : Iterate α) : Iterate α :=
  if d.closedForm then { it with z := d.consensus it } else it

/-- There is a convex program to solve. -/
def needsProgram (d : Decomposition α) : Bool :=
  !(d.closedForm && decide (d.problem.numContinuous = 0))

/-! ## Slack, multipliers, measures, penalty -/

/-- The penalty after a pass with given residuals. -/
def nextRho (params : Params α) (rho primal dual : α) : α :=
  let next :=
    match params.policy with
    | .fixed => rho
    | .grow => rho * params.rhoGrowth
    | .residualBalancing =>
      if params.balanceRatio * dual < primal then rho * params.raiseFactor
      else if params.balanceRatio * primal < dual then rho / params.lowerFactor
      else rho
  Scalar.clamp next params.rhoMin params.rhoMax

/-- The measures of an iterate; `residual` is `x - z - s` and `change` that of `z`. -/
def measure (d : Decomposition α) (it : Iterate α) (residual change : Vec α) : Measures α :=
  let violation := d.problem.violation it.x it.u
  let objective := d.problem.objective it.x it.u
  { primal := residual.norm
    dual := it.rho * change.norm
    violation := violation
    objective := objective
    merit := objective + d.params.meritWeight * violation }

/-- The end of a pass, after the blocks with subproblems; `zBefore` is the relaxed copy before the
pass. -/
def finish (d : Decomposition α) (zBefore : Vec α) (it : Iterate α) : Iterate α :=
  let it := if d.params.threeBlock then { it with s := d.slack it } else it
  let residual := it.x - it.z - it.s
  let it := { it with y := it.y + it.rho • residual }
  let measures := d.measure it residual (it.z - zBefore)
  { it with
    measures := measures
    rho := nextRho d.params it.rho measures.primal measures.dual
    iteration := it.iteration + 1
    status := .iterating }

/-! ## The pass -/

/-- The update of the relaxed copy and the continuous vector. -/
def updateContinuous (d : Decomposition α) (oracle : Oracle (Program α) α σ) (it : Iterate α) :
    StateM σ (Except (Fault α) (Iterate α)) := do
  let it := d.relax it
  if d.needsProgram then
    let answer ← oracle (d.program it)
    return (acceptContinuous (d.numRelaxed + d.problem.numContinuous) answer).map (d.place it)
  else return .ok it

def pass (d : Decomposition α) (oracles : Oracles α σ) (it : Iterate α) :
    StateM σ (Except (SubproblemFailure α) (Iterate α)) := do
  match acceptBinary d.problem.numBinary (← oracles.binary (d.qubo it)) with
  | .error fault => return .error ⟨it.iteration, .binary, fault⟩
  | .ok x =>
    match ← d.updateContinuous oracles.continuous { it with x } with
    | .error fault => return .error ⟨it.iteration, .continuous, fault⟩
    | .ok updated => return .ok (d.finish it.z updated)

end Decomposition

end BinarySplitting
