import BinarySplitting.Engine.Run

/-!
# The log of a run

What a run tells while it goes on: two lines at its start, a line for each pass if asked for, a
line for the reason to stop and a line for the result. A failed run tells nothing after its last
complete pass.
-/

namespace BinarySplitting

/-- How serious a line is. -/
inductive LogLevel where
  | info
  | warning
deriving DecidableEq

def LogLevel.name : LogLevel → String
  | .info => "info"
  | .warning => "warning"

inductive LogEntry (α : Type) where
  | problem (blocks binaries continuous equalities inequalities coupling : Nat)
  | parameters (rho : α) (params : Params α) (closedForm : Bool)
  | pass (record : Record α)
  | converged (record : Record α)
  | iterationLimit (limit : Int) (best : α)
  | timeLimit (limit : α) (iterations : Int) (best : α)
  | result (objective violation : α) (feasible : Bool) (iterations : Nat) (stop : Stop)

namespace LogEntry

/-- How serious a line is: a run that did not converge is worth a warning. -/
def level {α : Type} : LogEntry α → LogLevel
  | .iterationLimit _ _ | .timeLimit _ _ _ => .warning
  | _ => .info

def flag (b : Bool) : String := if b then "true" else "false"

/-- A whole number in a column of three. -/
def column (i : Int) : String := "".pushn ' ' (3 - i.repr.length) ++ i.repr

def brief (x : Float) : String := Decimal.general 3 x

/-- A number in scientific notation with two places. -/
def rough (x : Float) : String := Decimal.scientific 2 x

def text : LogEntry Float → String
  | .problem blocks binaries continuous equalities inequalities coupling =>
    "ADMM (" ++ blocks.repr ++ "-block): " ++ binaries.repr ++ " binaries, " ++
      continuous.repr ++ " continuous, " ++ equalities.repr ++ " eq / " ++ inequalities.repr ++
      " ineq / " ++ coupling.repr ++ " coupling rows"
  | .parameters rho params closedForm =>
    "ADMM config: rho=" ++ brief rho ++ ", beta=" ++ brief params.beta ++ ", c=" ++
      brief params.equalityWeight ++ ", maxiter=" ++ params.maxIterations.repr ++ ", tol=" ++
      rough params.tolerance ++ ", rho_policy=" ++ params.policy.name ++ ", closed_form_z=" ++
      flag closedForm
  | .pass r =>
    "  iter " ++ column r.iteration ++ ": r_pri=" ++ rough r.primal ++ " r_dual=" ++
      rough r.dual ++ " rho=" ++ brief r.rho ++ " obj=" ++ Decimal.fixed 6 r.objective ++
      " viol=" ++ rough r.violation
  | .converged r =>
    "ADMM converged at iteration " ++ r.iteration.repr ++ " (r_pri=" ++ rough r.primal ++
      ", r_dual=" ++ rough r.dual ++ ")"
  | .iterationLimit limit best =>
    "ADMM did not converge within " ++ limit.repr ++ " iterations (best r_pri=" ++
      rough best ++ ")"
  | .timeLimit limit iterations best =>
    "ADMM time limit of " ++ Decimal.fixed 3 limit ++ " s reached after " ++ iterations.repr ++
      " iterations (best r_pri=" ++ rough best ++ ")"
  | .result objective violation feasible iterations stop =>
    "ADMM result: fval=" ++ Decimal.fixed 6 objective ++ " violation=" ++ rough violation ++
      " feasible=" ++ flag feasible ++ " iters=" ++ iterations.repr ++ " status=" ++
      (Status.stopped stop).name

end LogEntry

namespace Run

variable {α : Type} [Scalar α]

def logStart (d : Decomposition α) (r : Run α) : List (LogEntry α) :=
  let p := d.problem
  [.problem (if d.params.threeBlock then 3 else 2) p.numBinary p.numContinuous p.numEqualities
     p.numInequalities p.numCoupling,
   .parameters r.start.rho d.params d.closedForm]

def logPasses (d : Decomposition α) (r : Run α) : List (LogEntry α) :=
  if d.params.verbose then r.history.records.map .pass else []

def logStop (d : Decomposition α) (r : Run α) : Stop → List (LogEntry α)
  | .converged => (r.history.records.getLast?.map .converged).toList
  | .iterationLimit => [.iterationLimit d.params.maxIterations r.best.measures.primal]
  | .timeLimit => [.timeLimit d.params.timeLimit r.last.iteration r.best.measures.primal]

def logEnd (d : Decomposition α) (r : Run α) : List (LogEntry α) :=
  match r.ending with
  | .failed _ => []
  | .stopped stop =>
    let result := r.resultAt d stop
    r.logStop d stop ++
      [.result result.objective result.violation result.feasible result.iterations result.stop]

def log (d : Decomposition α) (r : Run α) : List (LogEntry α) :=
  r.logStart d ++ r.logPasses d ++ r.logEnd d

end Run

end BinarySplitting
