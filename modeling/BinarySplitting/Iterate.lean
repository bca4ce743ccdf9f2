import BinarySplitting.Linear.Vec

/-!
# Iterates

What the splitting method carries from pass to pass: the binary vector `x` and its relaxed copy
`z`, the continuous vector `u`, the slack `s` between `x` and `z`, the multipliers `y` of
`x = z + s` and the penalty. An iterate also knows how far it is from a solution.
-/

namespace BinarySplitting

/-- Why a run came to its end. -/
inductive Stop where
  | converged
  | iterationLimit
  | timeLimit
deriving DecidableEq

/-- Where an iterate stands in a run. -/
inductive Status where
  | initialized
  | iterating
  | stopped (reason : Stop)
deriving DecidableEq

def Status.name : Status → String
  | .initialized => "INITIALIZED"
  | .iterating => "ITERATING"
  | .stopped .converged => "CONVERGED"
  | .stopped .iterationLimit => "MAX_ITER_REACHED"
  | .stopped .timeLimit => "TIME_LIMIT_REACHED"

/-- How far an iterate is from a solution. -/
structure Measures (α : Type) where
  /-- The norm of `x - z - s`. -/
  primal : α
  /-- The penalty times the norm of the change of `z`. -/
  dual : α
  violation : α
  objective : α
  /-- The objective plus the weighted violation. -/
  merit : α

structure Iterate (α : Type) where
  x : Vec α
  z : Vec α
  u : Vec α
  s : Vec α
  y : Vec α
  rho : α
  iteration : Int
  status : Status
  measures : Measures α

variable {α : Type} [Scalar α]

def Measures.unknown : Measures α :=
  ⟨Scalar.infinity, Scalar.infinity, Scalar.infinity, Scalar.infinity, Scalar.infinity⟩

def Iterate.blank : Iterate α :=
  ⟨Vec.empty, Vec.empty, Vec.empty, Vec.empty, Vec.empty, 0.0, 0, .initialized, .unknown⟩

end BinarySplitting
