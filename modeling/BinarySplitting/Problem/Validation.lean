import BinarySplitting.Problem.Basic
import BinarySplitting.Decimal.Places

/-!
# Well-formed problems

A problem is accepted when its blocks have the shapes that its sizes ask for, its data are finite,
its quadratic forms are symmetric, the continuous one is convex, and every continuous variable has
a value between its bounds. The checks stand in a fixed order and the first that fails gives the
defect. A check reads an entry only if earlier checks have shown that it exists.
-/

namespace BinarySplitting

namespace Problem

/-- The data of a problem that are checked, under their names in messages. -/
inductive Field where
  | binaryQuadratic
  | binaryLinear
  | continuousQuadratic
  | continuousLinear
  | equalityRows
  | equalityRhs
  | inequalityRows
  | inequalityRhs
  | couplingBinary
  | couplingContinuous
  | couplingRhs
  | binaryNames
  | continuousNames
deriving DecidableEq

def Field.name : Field → String
  | .binaryQuadratic => "Q"
  | .binaryLinear => "a"
  | .continuousQuadratic => "P"
  | .continuousLinear => "c"
  | .equalityRows => "G"
  | .equalityRhs => "b"
  | .inequalityRows => "A_ineq"
  | .inequalityRhs => "b_ineq"
  | .couplingBinary => "coupling_x"
  | .couplingContinuous => "coupling_u"
  | .couplingRhs => "coupling_rhs"
  | .binaryNames => "binary_names"
  | .continuousNames => "continuous_names"

/-- Why a problem is not accepted. -/
inductive Defect (α : Type) where
  | noBinaries
  | shape (field : Field) (rows cols expectedRows expectedCols : Nat)
  | notFinite (field : Field)
  /-- A quadratic form differs from its transpose by more than the tolerance. -/
  | notSymmetric (field : Field) (asymmetry : α)
  /-- The continuous quadratic form has an eigenvalue below the tolerance. -/
  | notConvex (least : α)
  | constantNotFinite
  | boundSizes (lower upper expected : Nat)
  | noValue (index : Nat) (lower upper : α)
  | nameCount (field : Field) (count expected : Nat)

def shapeText (rows cols : Nat) : String := rows.repr ++ "x" ++ cols.repr

def Defect.message : Defect Float → String
  | .noBinaries => "MalformedProblem: no binary variables (a is empty)"
  | .shape field rows cols expectedRows expectedCols =>
    "MalformedProblem: " ++ field.name ++ " is " ++ shapeText rows cols ++ ", expected " ++
      shapeText expectedRows expectedCols
  | .notFinite field => "MalformedProblem: " ++ field.name ++ " has non-finite entries"
  | .notSymmetric field asymmetry =>
    "MalformedProblem: " ++ field.name ++ " is not symmetric (max |M - M'| = " ++
      Decimal.fixed 6 asymmetry ++ ")"
  | .notConvex least =>
    "MalformedProblem: P is not positive semidefinite (min eigenvalue " ++
      Decimal.fixed 6 least ++ "), phi(u) is not convex"
  | .constantNotFinite => "MalformedProblem: objective constant is not finite"
  | .boundSizes lower upper expected =>
    "MalformedProblem: bounds of U have sizes " ++ lower.repr ++ "/" ++ upper.repr ++
      ", expected " ++ expected.repr
  | .noValue index lower upper =>
    "MalformedProblem: U is empty: u_lower[" ++ index.repr ++ "] = " ++ Decimal.fixed 6 lower ++
      ", u_upper[" ++ index.repr ++ "] = " ++ Decimal.fixed 6 upper
  | .nameCount field count expected =>
    "MalformedProblem: " ++ field.name ++ " has " ++ count.repr ++ " entries, expected " ++
      expected.repr

variable {α : Type} [Scalar α]

/-! ## Single checks -/

/-- A block has the shape asked for; one without entries may be left out. -/
def checkShape (field : Field) (m : Mat α) (rows cols : Nat) : Except (Defect α) Unit :=
  if (rows = 0 ∨ cols = 0) ∧ m.isEmpty then .ok ()
  else if m.hasShape rows cols then .ok ()
  else .error (.shape field m.rows m.cols rows cols)

def checkFinite (field : Field) (m : Mat α) : Except (Defect α) Unit :=
  if m.allFinite then .ok () else .error (.notFinite field)

def checkFiniteVec (field : Field) (v : Vec α) : Except (Defect α) Unit :=
  if v.allFinite then .ok () else .error (.notFinite field)

/-- The relative tolerance of the checks on symmetry and convexity. -/
def tolerance : α := 1e-9

/-- A matrix with entries is symmetric, up to the tolerance times its greatest absolute value, or
times one if that is greater. -/
def checkSymmetric (field : Field) (m : Mat α) : Except (Defect α) Unit :=
  let scale := Scalar.larger 1.0 m.maxAbs
  let asymmetry := (m - m.transpose).maxAbs
  if tolerance * scale < asymmetry then .error (.notSymmetric field asymmetry) else .ok ()

/-- The eigenvalues are nonnegative, up to the tolerance times the greatest absolute value, or
times one if that is greater. -/
def checkConvex (eigenvalues : Vec α) : Except (Defect α) Unit :=
  let least := eigenvalues.minimum
  let scale := Scalar.larger 1.0 (eigenvalues.map Scalar.abs).maximum
  if least < -tolerance * scale then .error (.notConvex least) else .ok ()

/-- No number lies between the two bounds. -/
def hasNoValue (lower upper : α) : Bool :=
  Scalar.isUndefined lower || Scalar.isUndefined upper || decide (upper < lower) ||
    Scalar.same lower Scalar.infinity || Scalar.same upper (-Scalar.infinity)

/-- Every continuous variable has a value between its bounds. -/
def checkBounds (p : Problem α) : Except (Defect α) Unit :=
  match (List.range p.numContinuous).find? fun j => hasNoValue (p.lower j) (p.upper j) with
  | some j => .error (.noValue j (p.lower j) (p.upper j))
  | none => .ok ()

/-- A list of names is empty or complete. -/
def checkNames (field : Field) (names : List String) (expected : Nat) : Except (Defect α) Unit :=
  if names.isEmpty || names.length = expected then .ok ()
  else .error (.nameCount field names.length expected)

/-! ## All checks -/

def checkBinaryPart (p : Problem α) : Except (Defect α) Unit := do
  if p.numBinary = 0 then throw .noBinaries
  checkShape .binaryQuadratic p.binaryQuadratic p.numBinary p.numBinary
  checkFinite .binaryQuadratic p.binaryQuadratic
  checkFiniteVec .binaryLinear p.binaryLinear
  checkSymmetric .binaryQuadratic p.binaryQuadratic

def checkContinuousPart (spectrum : Mat α → Vec α) (p : Problem α) : Except (Defect α) Unit := do
  checkShape .continuousQuadratic p.continuousQuadratic p.numContinuous p.numContinuous
  checkFinite .continuousQuadratic p.continuousQuadratic
  checkFiniteVec .continuousLinear p.continuousLinear
  if 0 < p.numContinuous then
    checkSymmetric .continuousQuadratic p.continuousQuadratic
    checkConvex (spectrum p.continuousQuadratic)
  unless Scalar.isFinite p.constant do throw .constantNotFinite

def checkRows (p : Problem α) : Except (Defect α) Unit := do
  checkShape .equalityRows p.equalityRows p.numEqualities p.numBinary
  checkFinite .equalityRows p.equalityRows
  checkFiniteVec .equalityRhs p.equalityRhs
  checkShape .inequalityRows p.inequalityRows p.numInequalities p.numBinary
  checkFinite .inequalityRows p.inequalityRows
  checkFiniteVec .inequalityRhs p.inequalityRhs
  checkShape .couplingBinary p.couplingBinary p.numCoupling p.numBinary
  checkShape .couplingContinuous p.couplingContinuous p.numCoupling p.numContinuous
  checkFinite .couplingBinary p.couplingBinary
  checkFinite .couplingContinuous p.couplingContinuous
  checkFiniteVec .couplingRhs p.couplingRhs

/-- The checks on the domain of the continuous variables and on the names. -/
def checkDomain (p : Problem α) : Except (Defect α) Unit := do
  unless p.lower.size = p.numContinuous ∧ p.upper.size = p.numContinuous do
    throw (.boundSizes p.lower.size p.upper.size p.numContinuous)
  checkBounds p
  checkNames .binaryNames p.binaryNames p.numBinary
  checkNames .continuousNames p.continuousNames p.numContinuous

/-- Accepts a well-formed problem, else gives its first defect; `spectrum` computes
eigenvalues. -/
def validate (spectrum : Mat α → Vec α) (p : Problem α) : Except (Defect α) Unit := do
  p.checkBinaryPart
  p.checkContinuousPart spectrum
  p.checkRows
  p.checkDomain

end Problem

end BinarySplitting
