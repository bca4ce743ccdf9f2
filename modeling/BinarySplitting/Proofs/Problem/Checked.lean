import BinarySplitting.Proofs.Linear.Conforming
import BinarySplitting.Proofs.Problem.Accepted

/-!
# The checks read only what exists

The checks on a problem, once more with operations that have no result unless their operands conform:
a difference of matrices asks for one shape, a greatest or least entry for some entry, an entry for an
index inside, and the eigenvalues for a square matrix that has entries. Whatever the problem is, the checks
with these tests have a result, and it is that of the checks without (`Problem.validate?_run`).

That is so because of the order of the checks. A check is reached only if all before it were passed, and what
they establish are the conditions of its operations; `Tests.bind` hands them on.
-/

namespace BinarySplitting

/-! ## Tests in sequence -/

/-- Checks that may be without a result have the given one. -/
def Tests {ε : Type} (x? : ExceptT ε Option Unit) (x : Except ε Unit) : Prop := x?.run = some x

namespace Tests

variable {ε : Type} {x? : ExceptT ε Option Unit} {x : Except ε Unit}

theorem bind {f? : Unit → ExceptT ε Option Unit} {f : Unit → Except ε Unit} (h : Tests x? x)
    (hf : x = .ok () → Tests (f? ()) (f ())) : Tests (x? >>= f?) (x >>= f) := by
  have hx : x? = ExceptT.mk (some x) := h
  subst hx
  rcases x with failure | ⟨⟩
  · rfl
  · exact hf rfl

end Tests

namespace Problem

variable {α : Type} [Scalar α]

/-! ## Checks with tests -/

/-- A check that looks at sizes, or at each entry that there is, needs no test. -/
def plain (check : Except (Defect α) Unit) : ExceptT (Defect α) Option Unit := .mk (some check)

/-- The matrix is symmetric up to the tolerance. -/
def checkSymmetric? (field : Field) (m : Mat α) : ExceptT (Defect α) Option Unit := .mk do
  let scale := Scalar.larger 1.0 (← m.maxAbs?)
  let asymmetry ← (← m.sub? m.transpose).maxAbs?
  return if tolerance * scale < asymmetry then .error (.notSymmetric field asymmetry) else .ok ()

/-- The eigenvalues of a square matrix with entries. -/
def eigenvalues? (spectrum : Mat α → Vec α) (m : Mat α) : Option (Vec α) :=
  if m.rows = m.cols ∧ 0 < m.rows then some (spectrum m) else none

/-- The eigenvalues are nonnegative up to the tolerance. -/
def checkConvex? (spectrum : Mat α → Vec α) (m : Mat α) : ExceptT (Defect α) Option Unit := .mk do
  let eigenvalues ← eigenvalues? spectrum m
  let least ← eigenvalues.minimum?
  let scale := Scalar.larger 1.0 (← (eigenvalues.map Scalar.abs).maximum?)
  return if least < -tolerance * scale then .error (.notConvex least) else .ok ()

/-- Looks for the first of some continuous variables that has no value between its bounds. -/
def checkBoundsOf? (p : Problem α) : List ℕ → Option (Except (Defect α) Unit)
  | [] => some (.ok ())
  | j :: js => do
    let lower ← p.lower.get? j
    let upper ← p.upper.get? j
    if hasNoValue lower upper then return .error (.noValue j lower upper) else checkBoundsOf? p js

def checkBinaryPart? (p : Problem α) : ExceptT (Defect α) Option Unit := do
  if p.numBinary = 0 then throw .noBinaries
  plain (checkShape .binaryQuadratic p.binaryQuadratic p.numBinary p.numBinary)
  plain (checkFinite .binaryQuadratic p.binaryQuadratic)
  plain (checkFiniteVec .binaryLinear p.binaryLinear)
  checkSymmetric? .binaryQuadratic p.binaryQuadratic

def checkContinuousPart? (spectrum : Mat α → Vec α) (p : Problem α) : ExceptT (Defect α) Option Unit := do
  plain (checkShape .continuousQuadratic p.continuousQuadratic p.numContinuous p.numContinuous)
  plain (checkFinite .continuousQuadratic p.continuousQuadratic)
  plain (checkFiniteVec .continuousLinear p.continuousLinear)
  if 0 < p.numContinuous then
    checkSymmetric? .continuousQuadratic p.continuousQuadratic
    checkConvex? spectrum p.continuousQuadratic
  unless Scalar.isFinite p.constant do throw .constantNotFinite

/-- The checks on the domain of the continuous variables and on the names. -/
def checkDomain? (p : Problem α) : ExceptT (Defect α) Option Unit := do
  unless p.lower.size = p.numContinuous ∧ p.upper.size = p.numContinuous do
    throw (.boundSizes p.lower.size p.upper.size p.numContinuous)
  .mk (checkBoundsOf? p (List.range p.numContinuous))
  plain (checkNames .binaryNames p.binaryNames p.numBinary)
  plain (checkNames .continuousNames p.continuousNames p.numContinuous)

/-- All checks; those on the constraint rows need no test. -/
def validate? (spectrum : Mat α → Vec α) (p : Problem α) : ExceptT (Defect α) Option Unit := do
  p.checkBinaryPart?
  p.checkContinuousPart? spectrum
  plain p.checkRows
  p.checkDomain?

/-! ## They have a result -/

section results

variable {p : Problem α} {spectrum : Mat α → Vec α} {field : Field} {m : Mat α} {n : ℕ}

omit [Scalar α] in
theorem plain_tests (check : Except (Defect α) Unit) : Tests (plain check) check := rfl

theorem checkSymmetric?_tests (hn : 0 < n) (hr : m.rows = n) (hc : m.cols = n) :
    Tests (checkSymmetric? field m) (checkSymmetric field m) := by
  have hrows : 0 < (m - m.transpose).rows := by
    show 0 < max m.rows m.cols
    omega
  have hcols : 0 < (m - m.transpose).cols := by
    show 0 < max m.cols m.rows
    omega
  show checkSymmetric? field m = some (checkSymmetric field m)
  unfold checkSymmetric?
  rw [Mat.maxAbs?_of_shape (by omega) (by omega), Mat.sub?_of_shape (hr.trans hc.symm) (hc.trans hr.symm)]
  show ((m - m.transpose).maxAbs? >>= fun _ => _) = _
  rw [Mat.maxAbs?_of_shape hrows hcols]
  rfl

theorem checkConvex?_tests (hn : 0 < n) (hr : m.rows = n) (hc : m.cols = n) (hsize : (spectrum m).size = n) :
    Tests (checkConvex? spectrum m) (checkConvex (spectrum m)) := by
  have heigenvalues : eigenvalues? spectrum m = some (spectrum m) := if_pos ⟨hr.trans hc.symm, by omega⟩
  show checkConvex? spectrum m = some (checkConvex (spectrum m))
  unfold checkConvex?
  rw [heigenvalues]
  show ((spectrum m).minimum? >>= fun _ => _) = _
  rw [Vec.minimum?_of_size (by omega), Vec.maximum?_of_size (by rw [Vec.size_map]; omega)]
  rfl

/-- The search stops at the first variable without a value, so it is that of `List.find?`. -/
theorem checkBoundsOf?_eq {js : List ℕ} (hlower : ∀ j ∈ js, j < p.lower.size)
    (hupper : ∀ j ∈ js, j < p.upper.size) :
    checkBoundsOf? p js = some (match js.find? fun j => hasNoValue (p.lower j) (p.upper j) with
      | some j => .error (.noValue j (p.lower j) (p.upper j))
      | none => .ok ()) := by
  induction js with
  | nil => rfl
  | cons j js ih =>
    rw [List.forall_mem_cons] at hlower hupper
    unfold checkBoundsOf?
    rw [Vec.get?_of_lt hlower.1, Vec.get?_of_lt hupper.1]
    show (if hasNoValue (p.lower j) (p.upper j) = true then _ else _) = _
    cases hvalue : hasNoValue (p.lower j) (p.upper j) with
    | true => simp only [List.find?_cons, hvalue, if_true]; rfl
    | false =>
      simp only [List.find?_cons, hvalue, Bool.false_eq_true, if_false]
      exact ih hlower.2 hupper.2

theorem checkBinaryPart?_tests (p : Problem α) : Tests p.checkBinaryPart? p.checkBinaryPart := by
  unfold checkBinaryPart? checkBinaryPart
  by_cases hn : p.numBinary = 0
  · rw [if_pos hn, if_pos hn]
    rfl
  · rw [if_neg hn, if_neg hn]
    have hpos := Nat.pos_of_ne_zero hn
    refine (plain_tests _).bind fun hshape => (plain_tests _).bind fun _ => (plain_tests _).bind fun _ => ?_
    obtain ⟨hr, hc⟩ := (checkShape_ok.1 hshape).shape hpos hpos
    exact checkSymmetric?_tests hpos hr hc

theorem checkContinuousPart?_tests (hsize : 0 < p.numContinuous →
      p.continuousQuadratic.Fits p.numContinuous p.numContinuous → p.continuousQuadratic.allFinite = true →
      IsSymmetric p.continuousQuadratic → (spectrum p.continuousQuadratic).size = p.numContinuous) :
    Tests (p.checkContinuousPart? spectrum) (p.checkContinuousPart spectrum) := by
  unfold checkContinuousPart? checkContinuousPart
  refine (plain_tests _).bind fun hshape => (plain_tests _).bind fun hfinite => (plain_tests _).bind fun _ => ?_
  by_cases hl : 0 < p.numContinuous
  · rw [if_pos hl, if_pos hl]
    have hfits := checkShape_ok.1 hshape
    obtain ⟨hr, hc⟩ := hfits.shape hl hl
    refine (checkSymmetric?_tests hl hr hc).bind fun hsymmetric => ?_
    have heigenvalues := hsize hl hfits (checkFinite_ok.1 hfinite) (checkSymmetric_ok.1 hsymmetric)
    refine (checkConvex?_tests hl hr hc heigenvalues).bind fun _ => ?_
    split <;> rfl
  · rw [if_neg hl, if_neg hl]
    split <;> rfl

theorem checkDomain?_tests (p : Problem α) : Tests p.checkDomain? p.checkDomain := by
  unfold checkDomain? checkDomain
  by_cases hsizes : p.lower.size = p.numContinuous ∧ p.upper.size = p.numContinuous
  · rw [if_pos hsizes, if_pos hsizes]
    have hbounds : Tests (.mk (checkBoundsOf? p (List.range p.numContinuous))) p.checkBounds :=
      checkBoundsOf?_eq (fun j hj => hsizes.1 ▸ List.mem_range.1 hj) fun j hj => hsizes.2 ▸ List.mem_range.1 hj
    exact hbounds.bind fun _ => (plain_tests _).bind fun _ => plain_tests _
  · rw [if_neg hsizes, if_neg hsizes]
    rfl

/-- Whatever the problem is, the checks with tests have the result of those without, if the eigenvalues are as
many as the continuous variables. -/
theorem validate?_run (hsize : 0 < p.numContinuous →
      p.continuousQuadratic.Fits p.numContinuous p.numContinuous → p.continuousQuadratic.allFinite = true →
      IsSymmetric p.continuousQuadratic → (spectrum p.continuousQuadratic).size = p.numContinuous) :
    (p.validate? spectrum).run = some (p.validate spectrum) :=
  (checkBinaryPart?_tests p).bind fun _ => (checkContinuousPart?_tests hsize).bind fun _ =>
    (plain_tests _).bind fun _ => checkDomain?_tests p

end results

end Problem

end BinarySplitting
