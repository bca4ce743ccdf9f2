import BinarySplitting.Splitting.Polish

/-!
# Solving programs

A program is checked, its constraints are put together, the iteration runs and its point is
refined. A solver answers with a point and its value, or with a failure, and in either case with
what it did.
-/

namespace BinarySplitting.Splitting

/-- What a solver did; the residuals and the step size are the last ones. -/
structure Info (α : Type) where
  iterations : Int
  converged : Bool
  polished : Bool
  primal : α
  dual : α
  rho : α

structure Solution (α : Type) where
  w : Vec α
  objective : α

structure Answer (α : Type) where
  info : Info α
  result : Except (Failure α) (Solution α)

structure Solver (α : Type) where
  settings : Settings α

variable {α : Type} [Scalar α]

def Info.none : Info α := ⟨0, false, false, 0.0, 0.0, 0.0⟩

/-- What was done when the iteration ended before its end. -/
def Info.stopped (iterations : Int) (l : Loop α) : Info α :=
  ⟨iterations, false, false, l.primal, l.dual, 0.0⟩

/-- The solver with given settings, if they are usable. -/
def Solver.ofSettings (settings : Settings α) : Except (Settings.Defect α) (Solver α) :=
  match settings.validate with
  | .ok () => .ok ⟨settings⟩
  | .error d => .error d

/-- What the iteration starts with; none if the system has no factorisation. -/
def Loop.start? (factor : Mat α → Option (LinearSolver α)) (s : System α)
    (settings : Settings α) : Option (Loop α) :=
  (factor (s.matrix settings settings.rho)).map fun solver =>
    ⟨Point.start s, settings.rho, solver, 0.0, 0.0⟩

/-- The answer after the iteration has ended by convergence or by its limit: the refined point if
there is one, else the last point if it converged. -/
def Outcome.finish (general : Mat α → LinearSolver α) (s : System α) (settings : Settings α)
    (o : Outcome α) : Answer α :=
  let converged := o.ending = .converged
  let iterations := min ((o.iteration : Int) + 1) settings.maxIterations
  let point := o.loop.point
  let refined? :=
    if settings.polish then (point.activeSet s.constraints).polish? general s settings else none
  let info : Info α :=
    ⟨iterations, converged, refined?.isSome, o.loop.primal, o.loop.dual, o.loop.rho⟩
  let result :=
    match refined? with
    | some r => .ok ⟨r.w, s.program.objective r.w⟩
    | none =>
      if converged then .ok ⟨point.w, s.program.objective point.w⟩
      else .error (.notConverged settings.maxIterations o.loop.primal o.loop.dual)
  ⟨info, result⟩

def Outcome.answer (general : Mat α → LinearSolver α) (s : System α) (settings : Settings α)
    (o : Outcome α) : Answer α :=
  match o.ending with
  | .converged | .exhausted => o.finish general s settings
  | .timeLimit => ⟨.stopped 0 o.loop, .error (.timeLimit settings.timeLimit o.iteration)⟩
  | .certificate => ⟨.stopped (o.iteration + 1) o.loop, .error (.certificate o.iteration)⟩
  | .refactorization => ⟨.stopped 0 o.loop, .error .refactorization⟩

/-- How the iteration on a program ends; none if its system has no factorisation. -/
def Solver.iterate? (kernels : Kernels α) (clock : Nat → α) (solver : Solver α) (s : System α) :
    Option (Outcome α) :=
  (Loop.start? kernels.symmetric? s solver.settings).map fun l =>
    l.run kernels.symmetric? clock s solver.settings solver.settings.iterations 0

/-- The answer to a program. -/
def Solver.solve (kernels : Kernels α) (clock : Nat → α) (solver : Solver α) (p : Program α) :
    Answer α :=
  match check p with
  | .error f => ⟨.none, .error f⟩
  | .ok () =>
    if p.dimension = 0 then ⟨{ Info.none with converged := true }, .ok ⟨Vec.empty, p.constant⟩⟩
    else
      let s := System.ofProgram p
      match s.constraints.crossed? with
      | some i => ⟨.none, .error (.crossedBounds i)⟩
      | none =>
        match solver.iterate? kernels clock s with
        | none => ⟨.none, .error .factorization⟩
        | some o => o.answer kernels.general s solver.settings

end BinarySplitting.Splitting
