import BinarySplitting.Engine.Start
import BinarySplitting.Result

/-!
# Runs

A run makes passes until the stopping test is met, the passes are used up or the time is over; a
failed pass ends it as well. The run is kept as the list of its passes and its ending. Which
iterate is returned, the history and the result are functions of it: a converged run returns its
last iterate, any other the one with the least primal residual, and of those with the least merit
the first.
-/

namespace BinarySplitting

/-- A pass that was made: the penalty during the pass and the iterate after it. -/
structure Pass (α : Type) where
  /-- The penalty during the pass. -/
  rho : α
  iterate : Iterate α

inductive Ending (α : Type) where
  | stopped (stop : Stop)
  | failed (failure : SubproblemFailure α)

structure Run (α : Type) where
  start : Iterate α
  passes : List (Pass α)
  ending : Ending α

/-- What makes runs: a decomposed problem, oracles, and the seconds that have passed after a number
of passes. -/
structure Engine (α σ : Type) where
  decomposition : Decomposition α
  oracles : Oracles α σ
  clock : Nat → α

variable {α σ : Type} [Scalar α]

/-! ## Passes and stops -/

def Params.isMet (params : Params α) (m : Measures α) : Bool :=
  decide (m.primal < params.tolerance) &&
    (!params.checkDual || decide (m.dual < params.dualTolerance))

/-- The reason to stop at an iterate, if there is one: first the stopping test, then the number of
passes, then the time. -/
def Params.stop? (params : Params α) (clock : Nat → α) (it : Iterate α) : Option Stop :=
  if params.isMet it.measures then some .converged
  else if params.maxIterations ≤ it.iteration then some .iterationLimit
  else if params.timeLimit ≤ clock it.iteration.toNat then some .timeLimit
  else none

/-- Makes passes from an iterate, `fuel` of them at most. -/
def Engine.passes (e : Engine α σ) :
    Nat → Iterate α → StateM σ (List (Pass α) × Ending α)
  | 0, _ => pure ([], .stopped .iterationLimit)
  | fuel + 1, it => do
    match ← e.decomposition.pass e.oracles it with
    | .error failure => return ([], .failed failure)
    | .ok next =>
      let made : Pass α := ⟨it.rho, next⟩
      match e.decomposition.params.stop? e.clock next with
      | some stop => return ([made], .stopped stop)
      | none =>
        let (rest, ending) ← e.passes fuel next
        return (made :: rest, ending)

/-- The run from an iterate on which no pass was made. -/
def Engine.run (e : Engine α σ) (start : Iterate α) : StateM σ (Run α) := do
  let (passes, ending) ← e.passes e.decomposition.params.maxIterations.toNat start
  return ⟨start, passes, ending⟩

/-! ## What a run gives -/

def Pass.record (p : Pass α) : Record α :=
  { iteration := p.iterate.iteration - 1
    primal := p.iterate.measures.primal
    dual := p.iterate.measures.dual
    rho := p.rho
    objective := p.iterate.measures.objective
    violation := p.iterate.measures.violation
    merit := p.iterate.measures.merit }

/-- One iterate is preferred to another: its primal residual is lower, or equal with a lower
merit. -/
def Measures.isBetter (m best : Measures α) : Bool :=
  decide (m.primal < best.primal) ||
    (Scalar.same m.primal best.primal && decide (m.merit < best.merit))

/-- The iterate that is preferred to all before it, beginning with a first one. -/
def bestIterate (first : Iterate α) (passes : List (Pass α)) : Iterate α :=
  passes.foldl
    (fun best p => if p.iterate.measures.isBetter best.measures then p.iterate else best) first

namespace Run

def history (r : Run α) : History α := ⟨r.passes.map Pass.record, false⟩

def last (r : Run α) : Iterate α := (r.passes.getLast?.map (·.iterate)).getD r.start

def best (r : Run α) : Iterate α :=
  match r.passes with
  | [] => r.start
  | p :: rest => bestIterate p.iterate rest

/-- The iterate that is returned for a reason to stop. -/
def selected (r : Run α) (stop : Stop) : Iterate α :=
  if stop = .converged then r.last else r.best

/-- The result of a run that stopped; its final penalty is that of the last iterate. -/
def resultAt (d : Decomposition α) (r : Run α) (stop : Stop) : Result α :=
  { Result.ofIterate d.problem d.params (r.selected stop) stop r.history with
    finalRho := r.last.rho }

/-- The result of a run, or the failure that ended it. -/
def result (d : Decomposition α) (r : Run α) : Except (SubproblemFailure α) (Result α) :=
  match r.ending with
  | .failed failure => .error failure
  | .stopped stop => .ok (r.resultAt d stop)

end Run

/-! ## Solving -/

inductive StepError (α : Type) where
  | start (defect : StartDefect)
  | failed (failure : SubproblemFailure α)

namespace Engine

/-- A single pass from a supplied iterate. -/
def step (e : Engine α σ) (it : Iterate α) : StateM σ (Except (StepError α) (Iterate α)) := do
  match e.decomposition.checkPass it with
  | .error defect => return .error (.start defect)
  | .ok () => return (← e.decomposition.pass e.oracles it).mapError .failed

def runFromStandard (e : Engine α σ) : StateM σ (Run α) := e.run e.decomposition.initial

/-- The run from a supplied iterate. -/
def runFrom (e : Engine α σ) (it : Iterate α) : StateM σ (Except StartDefect (Run α)) := do
  match e.decomposition.normalize it with
  | .error defect => return .error defect
  | .ok start => return .ok (← e.run start)

def solve (e : Engine α σ) : StateM σ (Except (SubproblemFailure α) (Result α)) := do
  return (← e.runFromStandard).result e.decomposition

/-- The result from a supplied iterate. -/
def solveFrom (e : Engine α σ) (it : Iterate α) :
    StateM σ (Except (StepError α) (Result α)) := do
  match ← e.runFrom it with
  | .error defect => return .error (.start defect)
  | .ok run => return (run.result e.decomposition).mapError .failed

end Engine

end BinarySplitting
