import Mathlib.Data.Nat.Notation
import Mathlib.Logic.Basic
import BinarySplitting.Decomposition

/-!
# Accepted problems

`Problem.Accepted` states what the checks ask of a problem, all at once; a problem passes them
exactly when it holds (`Problem.validate_eq_ok_iff`). The proof takes the checks apart in the order
in which they stand, one equivalence for each.
-/

namespace BinarySplitting

/-! ## Checks in sequence -/

section sequence

variable {ε : Type}

theorem check_seq_ok {a : Except ε Unit} {f : Unit → Except ε Unit} :
    a >>= f = .ok () ↔ a = .ok () ∧ f () = .ok () := by
  rcases a with failure | ⟨⟩
  · simp [bind, Except.bind]
  · simp [bind, Except.bind]

theorem check_if_ok {P : Prop} [Decidable P] {failure : ε} :
    (if P then (.ok () : Except ε Unit) else .error failure) = .ok () ↔ P := by
  split <;> simp_all

theorem check_unless_ok {P : Prop} [Decidable P] {failure : ε} :
    (if P then .error failure else (.ok () : Except ε Unit)) = .ok () ↔ ¬ P := by
  split <;> simp_all

theorem check_throw_ok {failure : ε} {f : Unit → Except ε Unit} :
    (throw failure >>= f) = .ok () ↔ False := by
  simp [throw, throwThe, MonadExceptOf.throw, bind, Except.bind]

end sequence

variable {α : Type}

/-- A block has the shape asked for; one without entries may be left out. -/
def Mat.Fits (m : Mat α) (rows cols : ℕ) : Prop :=
  (rows = 0 ∨ cols = 0) ∧ m.isEmpty = true ∨ m.hasShape rows cols = true

theorem Problem.checkShape_ok {field : Problem.Field} {m : Mat α} {rows cols : ℕ} :
    Problem.checkShape field m rows cols = .ok () ↔ m.Fits rows cols := by
  unfold Problem.checkShape Mat.Fits
  split
  · next h => simp [h]
  · next h => rw [check_if_ok, or_iff_right h]

theorem Problem.checkNames_ok {field : Problem.Field} {names : List String} {expected : ℕ} :
    Problem.checkNames (α := α) field names expected = .ok () ↔
      names = [] ∨ names.length = expected := by
  unfold Problem.checkNames
  rw [check_if_ok]
  simp

theorem Mat.Fits.hasShape {m : Mat α} {rows cols : ℕ} (h : m.Fits rows cols) (hr : 0 < rows)
    (hc : 0 < cols) : m.hasShape rows cols = true := by
  rcases h with ⟨hempty, -⟩ | hshape
  · omega
  · exact hshape

theorem Mat.Fits.shape {m : Mat α} {rows cols : ℕ} (h : m.Fits rows cols) (hr : 0 < rows) (hc : 0 < cols) :
    m.rows = rows ∧ m.cols = cols := by
  simpa [Mat.hasShape] using h.hasShape hr hc

variable [Scalar α]

namespace Problem

/-- Up to the tolerance the matrix equals its transpose. -/
def IsSymmetric (m : Mat α) : Prop :=
  ¬ tolerance * Scalar.larger 1.0 m.maxAbs < (m - m.transpose).maxAbs

/-- Up to the tolerance no eigenvalue is negative. -/
def IsConvex (eigenvalues : Vec α) : Prop :=
  ¬ eigenvalues.minimum < -tolerance * Scalar.larger 1.0 (eigenvalues.map Scalar.abs).maximum

/-- What the checks ask of a problem. -/
structure Accepted (spectrum : Mat α → Vec α) (p : Problem α) : Prop where
  numBinary_pos : 0 < p.numBinary
  binaryQuadratic : p.binaryQuadratic.Fits p.numBinary p.numBinary
  binaryQuadratic_finite : p.binaryQuadratic.allFinite = true
  binaryLinear_finite : p.binaryLinear.allFinite = true
  binaryQuadratic_symmetric : IsSymmetric p.binaryQuadratic
  continuousQuadratic : p.continuousQuadratic.Fits p.numContinuous p.numContinuous
  continuousQuadratic_finite : p.continuousQuadratic.allFinite = true
  continuousLinear_finite : p.continuousLinear.allFinite = true
  continuousQuadratic_convex : 0 < p.numContinuous →
    IsSymmetric p.continuousQuadratic ∧ IsConvex (spectrum p.continuousQuadratic)
  constant_finite : Scalar.isFinite p.constant = true
  equalityRows : p.equalityRows.Fits p.numEqualities p.numBinary
  equalityRows_finite : p.equalityRows.allFinite = true
  equalityRhs_finite : p.equalityRhs.allFinite = true
  inequalityRows : p.inequalityRows.Fits p.numInequalities p.numBinary
  inequalityRows_finite : p.inequalityRows.allFinite = true
  inequalityRhs_finite : p.inequalityRhs.allFinite = true
  couplingBinary : p.couplingBinary.Fits p.numCoupling p.numBinary
  couplingContinuous : p.couplingContinuous.Fits p.numCoupling p.numContinuous
  couplingBinary_finite : p.couplingBinary.allFinite = true
  couplingContinuous_finite : p.couplingContinuous.allFinite = true
  couplingRhs_finite : p.couplingRhs.allFinite = true
  lower_size : p.lower.size = p.numContinuous
  upper_size : p.upper.size = p.numContinuous
  hasValue : ∀ j < p.numContinuous, hasNoValue (p.lower j) (p.upper j) = false
  binaryNames : p.binaryNames = [] ∨ p.binaryNames.length = p.numBinary
  continuousNames : p.continuousNames = [] ∨ p.continuousNames.length = p.numContinuous

/-! ## Single checks -/

theorem checkFinite_ok {field : Field} {m : Mat α} :
    checkFinite field m = .ok () ↔ m.allFinite = true :=
  check_if_ok

theorem checkFiniteVec_ok {field : Field} {v : Vec α} :
    checkFiniteVec field v = .ok () ↔ v.allFinite = true :=
  check_if_ok

theorem checkSymmetric_ok {field : Field} {m : Mat α} :
    checkSymmetric field m = .ok () ↔ IsSymmetric m :=
  check_unless_ok

theorem checkConvex_ok {eigenvalues : Vec α} :
    checkConvex eigenvalues = .ok () ↔ IsConvex eigenvalues :=
  check_unless_ok

theorem checkBounds_ok {p : Problem α} :
    p.checkBounds = .ok () ↔
      ∀ j < p.numContinuous, hasNoValue (p.lower j) (p.upper j) = false := by
  unfold checkBounds
  split
  · next j hfound =>
    have hbad := List.find?_some hfound
    have hmem := List.mem_of_find?_eq_some hfound
    rw [List.mem_range] at hmem
    simp only [reduceCtorEq, false_iff, not_forall]
    exact ⟨j, hmem, by simp [hbad]⟩
  · next hnone =>
    rw [List.find?_eq_none] at hnone
    simpa using hnone

/-! ## All checks -/

theorem checkBinaryPart_ok {p : Problem α} :
    p.checkBinaryPart = .ok () ↔ 0 < p.numBinary ∧
      p.binaryQuadratic.Fits p.numBinary p.numBinary ∧ p.binaryQuadratic.allFinite = true ∧
      p.binaryLinear.allFinite = true ∧ IsSymmetric p.binaryQuadratic := by
  unfold checkBinaryPart
  by_cases hn : p.numBinary = 0
  · rw [if_pos hn]
    simp [hn, check_throw_ok]
  · rw [if_neg hn]
    simp only [check_seq_ok, checkShape_ok, checkFinite_ok, checkFiniteVec_ok, checkSymmetric_ok]
    exact (and_iff_right (Nat.pos_of_ne_zero hn)).symm

theorem checkContinuousPart_ok {spectrum : Mat α → Vec α} {p : Problem α} :
    p.checkContinuousPart spectrum = .ok () ↔
      p.continuousQuadratic.Fits p.numContinuous p.numContinuous ∧
      p.continuousQuadratic.allFinite = true ∧ p.continuousLinear.allFinite = true ∧
      (0 < p.numContinuous →
        IsSymmetric p.continuousQuadratic ∧ IsConvex (spectrum p.continuousQuadratic)) ∧
      Scalar.isFinite p.constant = true := by
  unfold checkContinuousPart
  simp only [check_seq_ok, checkShape_ok, checkFinite_ok, checkFiniteVec_ok]
  by_cases hl : 0 < p.numContinuous
  · rw [if_pos hl, forall_prop_of_true hl]
    simp only [check_seq_ok, checkSymmetric_ok, checkConvex_ok, and_assoc]
    exact and_congr_right' (and_congr_right' (and_congr_right' (and_congr_right'
      (and_congr_right' check_if_ok))))
  · rw [if_neg hl, forall_prop_of_false hl, true_and]
    exact and_congr_right' (and_congr_right' (and_congr_right' check_if_ok))

theorem checkRows_ok {p : Problem α} :
    p.checkRows = .ok () ↔
      p.equalityRows.Fits p.numEqualities p.numBinary ∧ p.equalityRows.allFinite = true ∧
      p.equalityRhs.allFinite = true ∧
      p.inequalityRows.Fits p.numInequalities p.numBinary ∧ p.inequalityRows.allFinite = true ∧
      p.inequalityRhs.allFinite = true ∧
      p.couplingBinary.Fits p.numCoupling p.numBinary ∧
      p.couplingContinuous.Fits p.numCoupling p.numContinuous ∧
      p.couplingBinary.allFinite = true ∧ p.couplingContinuous.allFinite = true ∧
      p.couplingRhs.allFinite = true := by
  unfold checkRows
  simp only [check_seq_ok, checkShape_ok, checkFinite_ok, checkFiniteVec_ok]

theorem checkDomain_ok {p : Problem α} :
    p.checkDomain = .ok () ↔ (p.lower.size = p.numContinuous ∧ p.upper.size = p.numContinuous) ∧
      (∀ j < p.numContinuous, hasNoValue (p.lower j) (p.upper j) = false) ∧
      (p.binaryNames = [] ∨ p.binaryNames.length = p.numBinary) ∧
      (p.continuousNames = [] ∨ p.continuousNames.length = p.numContinuous) := by
  unfold checkDomain
  by_cases hsizes : p.lower.size = p.numContinuous ∧ p.upper.size = p.numContinuous
  · rw [if_pos hsizes]
    simp only [check_seq_ok, checkBounds_ok, checkNames_ok]
    exact (and_iff_right hsizes).symm
  · rw [if_neg hsizes]
    simp [hsizes, check_throw_ok]

theorem validate_eq_ok_iff {spectrum : Mat α → Vec α} {p : Problem α} :
    p.validate spectrum = .ok () ↔ p.Accepted spectrum := by
  unfold validate
  simp only [check_seq_ok, checkBinaryPart_ok, checkContinuousPart_ok, checkRows_ok, checkDomain_ok]
  constructor
  · rintro ⟨⟨hcount, hbinary⟩, hcontinuous, hrows, hdomain⟩
    exact {
      numBinary_pos := hcount
      binaryQuadratic := hbinary.1
      binaryQuadratic_finite := hbinary.2.1
      binaryLinear_finite := hbinary.2.2.1
      binaryQuadratic_symmetric := hbinary.2.2.2
      continuousQuadratic := hcontinuous.1
      continuousQuadratic_finite := hcontinuous.2.1
      continuousLinear_finite := hcontinuous.2.2.1
      continuousQuadratic_convex := hcontinuous.2.2.2.1
      constant_finite := hcontinuous.2.2.2.2
      equalityRows := hrows.1
      equalityRows_finite := hrows.2.1
      equalityRhs_finite := hrows.2.2.1
      inequalityRows := hrows.2.2.2.1
      inequalityRows_finite := hrows.2.2.2.2.1
      inequalityRhs_finite := hrows.2.2.2.2.2.1
      couplingBinary := hrows.2.2.2.2.2.2.1
      couplingContinuous := hrows.2.2.2.2.2.2.2.1
      couplingBinary_finite := hrows.2.2.2.2.2.2.2.2.1
      couplingContinuous_finite := hrows.2.2.2.2.2.2.2.2.2.1
      couplingRhs_finite := hrows.2.2.2.2.2.2.2.2.2.2
      lower_size := hdomain.1.1
      upper_size := hdomain.1.2
      hasValue := hdomain.2.1
      binaryNames := hdomain.2.2.1
      continuousNames := hdomain.2.2.2 }
  · intro h
    exact ⟨⟨h.numBinary_pos, h.binaryQuadratic, h.binaryQuadratic_finite, h.binaryLinear_finite,
        h.binaryQuadratic_symmetric⟩,
      ⟨h.continuousQuadratic, h.continuousQuadratic_finite, h.continuousLinear_finite,
        h.continuousQuadratic_convex, h.constant_finite⟩,
      ⟨h.equalityRows, h.equalityRows_finite, h.equalityRhs_finite, h.inequalityRows,
        h.inequalityRows_finite, h.inequalityRhs_finite, h.couplingBinary, h.couplingContinuous,
        h.couplingBinary_finite, h.couplingContinuous_finite, h.couplingRhs_finite⟩,
      ⟨h.lower_size, h.upper_size⟩, h.hasValue, h.binaryNames, h.continuousNames⟩

theorem Accepted.withInequalities {spectrum : Mat α → Vec α} {p : Problem α} (h : p.Accepted spectrum)
    {rows : Mat α} {rhs : Vec α} (hrows : rows.Fits rhs.size p.numBinary) (hfinite : rows.allFinite = true)
    (hrhs : rhs.allFinite = true) :
    { p with inequalityRows := rows, inequalityRhs := rhs }.Accepted spectrum :=
  { h with inequalityRows := hrows, inequalityRows_finite := hfinite, inequalityRhs_finite := hrhs }

theorem Accepted.withCoupling {spectrum : Mat α → Vec α} {p : Problem α} (h : p.Accepted spectrum)
    (hnone : p.numContinuous = 0) (hempty : p.couplingContinuous.isEmpty = true) {rows : Mat α}
    {rhs : Vec α} (hrows : rows.Fits rhs.size p.numBinary) (hfinite : rows.allFinite = true)
    (hrhs : rhs.allFinite = true) :
    { p with couplingBinary := rows, couplingRhs := rhs }.Accepted spectrum :=
  { h with
    couplingBinary := hrows
    couplingContinuous := Or.inl ⟨Or.inr hnone, hempty⟩
    couplingBinary_finite := hfinite
    couplingRhs_finite := hrhs }

end Problem

namespace Decomposition

theorem create_eq_ok_iff {kernels : Kernels α} {p : Problem α} {params : Params α}
    {d : Decomposition α} :
    create kernels p params = .ok d ↔
      p.Accepted kernels.spectrum ∧ params.validate = .ok () ∧ d = ofProblem p params := by
  unfold create
  rw [← Problem.validate_eq_ok_iff]
  rcases p.validate kernels.spectrum with defect | ⟨⟩
  · simp
  · rcases params.validate with defect | ⟨⟩
    · simp
    · simp [eq_comm]

theorem create_of_isOk {kernels : Kernels α} {p : Problem α} {params : Params α}
    (h : (create kernels p params).isOk = true) :
    create kernels p params = .ok (ofProblem p params) := by
  cases hcreate : create kernels p params with
  | error refusal =>
    rw [hcreate] at h
    cases h
  | ok d => rw [(create_eq_ok_iff.1 hcreate).2.2]

@[simp] theorem ofProblem_problem (p : Problem α) (params : Params α) :
    (ofProblem p params).problem = p := by
  unfold ofProblem
  dsimp only
  split <;> rfl

@[simp] theorem ofProblem_params (p : Problem α) (params : Params α) :
    (ofProblem p params).params = params := by
  unfold ofProblem
  dsimp only
  split <;> rfl

theorem create_ok {kernels : Kernels α} {p : Problem α} {params : Params α} {d : Decomposition α}
    (h : create kernels p params = .ok d) : d.problem = p ∧ d.params = params ∧
      d.problem.Accepted kernels.spectrum ∧ d.params.validate = .ok () := by
  obtain ⟨haccepted, hvalid, rfl⟩ := create_eq_ok_iff.1 h
  rw [ofProblem_problem, ofProblem_params]
  exact ⟨rfl, rfl, haccepted, hvalid⟩

theorem ofProblem_closedForm (p : Problem α) (params : Params α) :
    (ofProblem p params).closedForm = (decide (p.numInequalities = 0) && !touchesBinaries p) := by
  unfold ofProblem
  dsimp only
  split <;> rfl

end Decomposition

end BinarySplitting
