import BinarySplitting.Iterate
import BinarySplitting.Linear.Kernels
import BinarySplitting.Params.Validation
import BinarySplitting.Problem.Validation
import BinarySplitting.Qubo.Basic
import BinarySplitting.Splitting.Program

/-!
# Decomposition

The augmented Lagrangian of a problem with the consensus `x = z + s` is
`q(x) + (c/2)|Gx - b|² + φ(u) + (β/2)|s|² + y'(x - z - s) + (ρ/2)|x - z - s|²`, over `z` in the
unit box that satisfies the inequalities and, with `u`, the coupling rows. With all other vectors
fixed, it is a quadratic binary problem in `x`, a convex program in `(z, u)` and a parabola in each
entry of `s`. When no row touches `z`, its minimiser has a closed form and the program is in `u`
alone.
-/

namespace BinarySplitting

/-- A problem and parameters with what their subproblems share: the parts of the binary problem that no iterate
changes, and whether the relaxed copy has a closed form. -/
structure Decomposition (α : Type) where
  problem : Problem α
  params : Params α
  quadratic : Mat α
  linear : Vec α
  constant : α
  closedForm : Bool

/-- Why a problem is not decomposed. -/
inductive Decomposition.Refusal (α : Type) where
  | problem (defect : Problem.Defect α)
  | params (defect : Params.Defect α)

namespace Decomposition

variable {α : Type} [Scalar α]

/-! ## Construction -/

/-- Some coupling row touches the binary variables. -/
def touchesBinaries (p : Problem α) : Bool :=
  decide (0 < p.numCoupling) && !p.couplingBinary.isEmpty &&
    p.couplingBinary.any fun a => !Scalar.same a 0.0

/-- The decomposition of a problem for given parameters. The equalities enter the binary problem
as a weighted square. -/
def ofProblem (p : Problem α) (params : Params α) : Decomposition α :=
  let c := params.equalityWeight
  let form := p.binaryQuadratic.symmetricPart
  let closedForm := decide (p.numInequalities = 0) && !touchesBinaries p
  if p.numEqualities = 0 then ⟨p, params, form, p.binaryLinear, p.constant, closedForm⟩
  else
    let t := p.equalityRows.transpose
    { problem := p
      params := params
      quadratic := form + ((0.5 * c) • t) * p.equalityRows
      linear := p.binaryLinear - (c • t).mulVec p.equalityRhs
      constant := p.constant + 0.5 * c * p.equalityRhs.dot p.equalityRhs
      closedForm := closedForm }

/-- The decomposition of a problem, if it and the parameters are accepted. -/
def create (kernels : Kernels α) (p : Problem α) (params : Params α) :
    Except (Refusal α) (Decomposition α) :=
  match p.validate kernels.spectrum with
  | .error defect => .error (.problem defect)
  | .ok () =>
    match params.validate with
    | .error defect => .error (.params defect)
    | .ok () => .ok (ofProblem p params)

/-- The number of leading variables of the convex program that belong to the relaxed copy. -/
def numRelaxed (d : Decomposition α) : Nat := if d.closedForm then 0 else d.problem.numBinary

/-! ## Subproblems -/

/-- The binary problem at an iterate's `z`, `s`, `y` and penalty. -/
def qubo (d : Decomposition α) (it : Iterate α) : Qubo α :=
  let target := it.z + it.s
  { quadratic := d.quadratic.addDiagonal (0.5 * it.rho)
    linear := d.linear + it.y - it.rho • target
    constant := d.constant - it.y.dot target + 0.5 * it.rho * target.dot target }

/-- The quadratic form of the convex program: the penalty on the relaxed copy, the symmetric form
of the continuous part. -/
def programQuadratic (d : Decomposition α) (rho : α) : Mat α :=
  let nz := d.numRelaxed
  let l := d.problem.numContinuous
  let form := d.problem.continuousQuadratic + d.problem.continuousQuadratic.transpose
  Mat.ofFn (nz + l) (nz + l) fun i j =>
    if i < nz ∧ j < nz then (if i = j then rho else 0.0)
    else if nz ≤ i ∧ nz ≤ j then form (i - nz) (j - nz)
    else 0.0

/-- The rows of the convex program: the inequalities, then the coupling rows. -/
def programRows (d : Decomposition α) : Mat α :=
  let p := d.problem
  let nz := d.numRelaxed
  let mg := if d.closedForm then 0 else p.numInequalities
  Mat.ofFn (mg + p.numCoupling) (nz + p.numContinuous) fun i j =>
    if i < mg then (if j < nz then p.inequalityRows i j else 0.0)
    else if j < nz then
      (if p.couplingBinary.isEmpty then 0.0 else p.couplingBinary (i - mg) j)
    else if p.couplingContinuous.isEmpty then 0.0
    else p.couplingContinuous (i - mg) (j - nz)

/-- The upper bounds of the convex program's rows. -/
def programRowUpper (d : Decomposition α) : Vec α :=
  if d.closedForm then d.problem.couplingRhs
  else d.problem.inequalityRhs ++ d.problem.couplingRhs

/-- The convex program at an iterate's `x`, `s`, `y` and penalty. -/
def program (d : Decomposition α) (it : Iterate α) : Program α :=
  let p := d.problem
  let nz := d.numRelaxed
  let target := it.x - it.s
  let rowUpper := d.programRowUpper
  { quadratic := d.programQuadratic it.rho
    linear := if nz = 0 then p.continuousLinear else (-it.y - it.rho • target) ++ p.continuousLinear
    constant := if nz = 0 then 0.0 else 0.0 + (it.y.dot target + 0.5 * it.rho * target.dot target)
    rows := d.programRows
    rowLower := Vec.const rowUpper.size (-Scalar.infinity)
    rowUpper := rowUpper
    lower := Vec.zero nz ++ p.lower
    upper := Vec.const nz 1.0 ++ p.upper }

/-- The relaxed copy in closed form. -/
def consensus (_ : Decomposition α) (it : Iterate α) : Vec α :=
  (it.x - it.s + it.y.divBy it.rho).withinUnit

def slack (d : Decomposition α) (it : Iterate α) : Vec α :=
  (it.y + it.rho • (it.x - it.z)).divBy (d.params.beta + it.rho)

end Decomposition

end BinarySplitting
