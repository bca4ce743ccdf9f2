import BinarySplitting.Linear.Kernels
import BinarySplitting.Splitting.Constraints
import BinarySplitting.Splitting.Settings

/-!
# The iteration of the program solver

A point is a vector `w`, an image `z` inside the bounds and multipliers `y`. One iteration solves a
linear system for `w`, projects the relaxed image onto the bounds and adds what the projection
moved to the multipliers. Some iterations are checked: against the time limit, for a certificate
that no point is feasible, and for residuals within the tolerances; a check may change the step
size, and then the system is factorised anew.
-/

namespace BinarySplitting.Splitting

/-- A point of the iteration; `dy` is the last change of the multipliers. -/
structure Point (α : Type) where
  w : Vec α
  z : Vec α
  y : Vec α
  dy : Vec α

/-- The size of what is missing at a point, and the scales it is compared with. -/
structure Residuals (α : Type) where
  primal : α
  dual : α
  primalScale : α
  dualScale : α

inductive Ending where
  | converged
  | exhausted
  | timeLimit
  | certificate
  /-- The system could not be factorised for the new step size. -/
  | refactorization
deriving DecidableEq

/-- A program and its constraints, with the transpose of their matrix and its product with the matrix. -/
structure System (α : Type) where
  program : Program α
  constraints : Constraints α
  transposed : Mat α
  gram : Mat α

/-- What the iteration carries along: besides the point the step size, the solver of the system for it, and the
residuals of the last check that measured them. -/
structure Loop (α : Type) where
  point : Point α
  rho : α
  solver : LinearSolver α
  primal : α
  dual : α

structure Outcome (α : Type) where
  ending : Ending
  /-- The iteration in which it ended, counted from zero. -/
  iteration : Nat
  loop : Loop α

variable {α : Type} [Scalar α]

def System.ofProgram (p : Program α) : System α :=
  let c := Constraints.ofProgram p
  let t := c.rows.transpose
  ⟨p, c, t, t * c.rows⟩

/-- The matrix of the linear system for a step size. -/
def System.matrix (s : System α) (settings : Settings α) (rho : α) : Mat α :=
  s.program.quadratic + settings.sigma • Mat.identity s.program.dimension + rho • s.gram

def Point.start (s : System α) : Point α :=
  let m := s.constraints.size
  ⟨Vec.zero s.program.dimension, Vec.zero m, Vec.zero m, Vec.zero m⟩

def Point.next (s : System α) (settings : Settings α) (solver : LinearSolver α) (rho : α)
    (p : Point α) : Point α :=
  let a := settings.alpha
  let rhs := settings.sigma • p.w - s.program.linear + s.transposed.mulVec (rho • p.z - p.y)
  let w := solver.solve rhs
  let relaxed := a • s.constraints.rows.mulVec w + (1.0 - a) • p.z
  let z := (relaxed + p.y.divBy rho).within s.constraints.lower s.constraints.upper
  let dy := rho • (relaxed - z)
  ⟨a • w + (1.0 - a) • p.w, z, p.y + dy, dy⟩

def Point.residuals (s : System α) (p : Point α) : Residuals α :=
  let image := s.constraints.rows.mulVec p.w
  let curvature := s.program.quadratic.mulVec p.w
  let force := s.transposed.mulVec p.y
  { primal := (image - p.z).maxNorm
    dual := (curvature + s.program.linear + force).maxNorm
    primalScale := Scalar.larger image.maxNorm p.z.maxNorm
    dualScale :=
      Scalar.larger (Scalar.larger curvature.maxNorm force.maxNorm) s.program.linear.maxNorm }

def Settings.primalTolerance (settings : Settings α) (r : Residuals α) : α :=
  settings.absolute + settings.relative * r.primalScale

def Settings.dualTolerance (settings : Settings α) (r : Residuals α) : α :=
  settings.absolute + settings.relative * r.dualScale

def Residuals.areSmall (settings : Settings α) (r : Residuals α) : Bool :=
  decide (r.primal ≤ settings.primalTolerance r) && decide (r.dual ≤ settings.dualTolerance r)

/-- The step size that the residuals ask for: the larger the primal residual is beside the dual
one, the larger the step. -/
def Residuals.stepSize (settings : Settings α) (r : Residuals α) (rho : α) : α :=
  let primal := r.primal / Scalar.larger r.primalScale 1e-30
  let dual := r.dual / Scalar.larger r.dualScale 1e-30
  Scalar.clamp (rho * Scalar.sqrt (primal / Scalar.larger dual 1e-30)) settings.rhoMin
    settings.rhoMax

/-- A step size differs enough from the present one to replace it. -/
def Settings.changes (settings : Settings α) (rho new : α) : Bool :=
  decide (settings.adaptiveFactor * rho < new) || decide (new < rho / settings.adaptiveFactor)

/-- Takes the step size that the residuals ask for, if it differs enough; none if the system
cannot be factorised for it. -/
def Loop.adapt? (factor : Mat α → Option (LinearSolver α)) (s : System α) (settings : Settings α)
    (r : Residuals α) (l : Loop α) : Option (Loop α) :=
  let new := r.stepSize settings l.rho
  if settings.adaptive && settings.changes l.rho new then
    (factor (s.matrix settings new)).map fun solver => { l with rho := new, solver }
  else some l

/-- The check of an iteration: why the iteration ends, or what it goes on with. -/
def Loop.check (factor : Mat α → Option (LinearSolver α)) (s : System α) (settings : Settings α)
    (elapsed : α) (l : Loop α) : Except (Ending × Loop α) (Loop α) :=
  if settings.timeLimit ≤ elapsed then .error (.timeLimit, l)
  else if s.constraints.isInfeasibleAlong l.point.dy settings.infeasibility then
    .error (.certificate, l)
  else
    let r := l.point.residuals s
    let measured := { l with primal := r.primal, dual := r.dual }
    if r.areSmall settings then .error (.converged, measured)
    else
      match measured.adapt? factor s settings r with
      | none => .error (.refactorization, measured)
      | some l => .ok l

/-- The iterations from `iteration` on, `fuel` of them at most; `clock` gives the seconds that have
passed at an iteration's check. -/
def Loop.run (factor : Mat α → Option (LinearSolver α)) (clock : Nat → α) (s : System α)
    (settings : Settings α) : Nat → Nat → Loop α → Outcome α
  | 0, iteration, l => ⟨.exhausted, iteration, l⟩
  | fuel + 1, iteration, l =>
    let l := { l with point := l.point.next s settings l.solver l.rho }
    if settings.isChecked iteration then
      match l.check factor s settings (clock iteration) with
      | .error (ending, l) => ⟨ending, iteration, l⟩
      | .ok l => l.run factor clock s settings fuel (iteration + 1)
    else l.run factor clock s settings fuel (iteration + 1)

end BinarySplitting.Splitting
