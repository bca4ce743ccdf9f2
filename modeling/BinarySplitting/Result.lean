import BinarySplitting.History
import BinarySplitting.Params.Basic
import BinarySplitting.Problem.Basic

/-!
# Results

A result is made from the iterate at which a run came to its end: its point, what the point is
worth, and the frozen history of the run. An iterate of a run that goes on gives no result.
-/

namespace BinarySplitting

/-- The result of a run; `solution` is the binary vector followed by the continuous one. -/
structure Result (α : Type) where
  x : Vec α
  u : Vec α
  solution : Vec α
  objective : α
  violation : α
  feasible : Bool
  stop : Stop
  /-- The number of passes. A run makes no more than its limit, a machine integer, allows, so a count
  needs no narrower type. -/
  iterations : Nat
  finalRho : α
  history : History α

namespace Result

def converged {α : Type} (r : Result α) : Bool := decide (r.stop = .converged)

/-- An iterate of a run that goes on. -/
structure NotFinal where
  status : Status
deriving DecidableEq

/-- The message for an iterate of a run that goes on. -/
def NotFinal.message (e : NotFinal) : String :=
  "ResultAssembler: snapshot status " ++ e.status.name ++ " is not terminal"

variable {α : Type} [Scalar α]

/-- The result at an iterate, for a reason to stop. -/
def ofIterate (p : Problem α) (params : Params α) (it : Iterate α) (stop : Stop)
    (history : History α) : Result α :=
  let violation := p.violation it.x it.u
  { x := it.x
    u := it.u
    solution := if p.numContinuous = 0 then it.x else it.x ++ it.u
    objective := p.objective it.x it.u
    violation := violation
    feasible := decide (violation ≤ params.feasibilityTolerance)
    stop := stop
    iterations := history.size
    finalRho := it.rho
    history := history.freeze }

/-- The result at an iterate whose status says that the run came to its end. -/
def assemble (p : Problem α) (params : Params α) (it : Iterate α) (history : History α) :
    Except NotFinal (Result α) :=
  match it.status with
  | .stopped stop => .ok (ofIterate p params it stop history)
  | status => .error ⟨status⟩

end Result

end BinarySplitting
