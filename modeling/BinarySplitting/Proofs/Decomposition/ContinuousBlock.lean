import BinarySplitting.Proofs.Decomposition.Lagrangian
import BinarySplitting.Proofs.Linear.Blocks
import BinarySplitting.Proofs.Splitting.Minimiser

/-!
# The block in the relaxed copy and the continuous vector

The convex program of a pass is the block of the augmented Lagrangian in `z` and `u`. With rows that
touch `z` its variables are `z` followed by `u`: its feasible vectors are the feasible pairs
(`isFeasible_joint`) and its value is the part of the augmented Lagrangian in which they occur
(`objective_joint`). In closed form its variables are those of `u` alone; then the pairs whose `z`
lies in the unit box and whose `u` is feasible are the feasible ones (`isBlockFeasible_closed`).
-/

namespace BinarySplitting

open Matrix

/-- A relaxed copy in the unit box and a continuous vector within its bounds that satisfy the
inequalities and the coupling rows. -/
structure Problem.IsBlockFeasible {α : Type} [Scalar α] (p : Problem α) (z u : Vec α) : Prop where
  unit : ∀ i < p.numBinary, 0.0 ≤ z i ∧ z i ≤ 1.0
  inequalities : ∀ i < p.numInequalities, p.inequalityRows.mulVec z i ≤ p.inequalityRhs i
  coupling : ∀ i < p.numCoupling, p.couplingLhs z u i ≤ p.couplingRhs i
  bounds : ∀ j < p.numContinuous, p.lower j ≤ u j ∧ u j ≤ p.upper j

/-- A continuous vector within its bounds that satisfies the coupling rows as far as it takes part in them. -/
structure Problem.IsContinuousFeasible {α : Type} [Scalar α] (p : Problem α) (u : Vec α) : Prop where
  coupling : ∀ i < p.numCoupling,
    (Scalar.sum p.numContinuous fun j => p.couplingContinuous i j * u j) ≤ p.couplingRhs i
  bounds : ∀ j < p.numContinuous, p.lower j ≤ u j ∧ u j ≤ p.upper j

theorem Problem.Reals.isBlockFeasible_ofReal {p : Problem Exact} (R : p.Reals)
    (z : Fin p.numBinary → ℝ) (u : Fin p.numContinuous → ℝ) :
    p.IsBlockFeasible (Vec.ofReal z) (Vec.ofReal u) ↔
      (∀ i, 0 ≤ z i ∧ z i ≤ 1) ∧ (∀ i, (R.A *ᵥ z) i ≤ R.r i) ∧
        (∀ i, (R.C *ᵥ z + R.D *ᵥ u) i ≤ R.d i) ∧
        ∀ j : Fin p.numContinuous, p.lower j ≤ .real (u j) ∧ .real (u j) ≤ p.upper j := by
  constructor
  · intro h
    refine ⟨?_, ?_, ?_, ?_⟩
    · intro i
      simpa using h.unit i i.isLt
    · intro i
      have hrow := h.inequalities i i.isLt
      rwa [R.inequalityRows_ofReal, R.inequalityRhs_eq, Vec.get_ofReal_fin, Exact.real_le_real] at hrow
    · intro i
      have hrow := h.coupling i i.isLt
      rwa [R.couplingLhs_ofReal, R.couplingRhs_eq, Vec.get_ofReal_fin, Exact.real_le_real] at hrow
    · intro j
      simpa using h.bounds j j.isLt
  · rintro ⟨hunit, hinequalities, hcoupling, hbounds⟩
    refine ⟨?_, ?_, ?_, ?_⟩
    · intro i hi
      rw [Vec.get_ofReal z hi, Exact.zero_literal, Exact.one_literal, Exact.real_le_real,
        Exact.real_le_real]
      exact hunit ⟨i, hi⟩
    · intro i hi
      have hrow := R.inequalityRows_ofReal z ⟨i, hi⟩
      dsimp only at hrow
      rw [hrow, R.inequalityRhs_eq, Vec.get_ofReal R.r hi, Exact.real_le_real]
      exact hinequalities ⟨i, hi⟩
    · intro i hi
      have hrow := R.couplingLhs_ofReal z u ⟨i, hi⟩
      dsimp only at hrow
      rw [hrow, R.couplingRhs_eq, Vec.get_ofReal R.d hi, Exact.real_le_real]
      exact hcoupling ⟨i, hi⟩
    · intro j hj
      rw [Vec.get_ofReal u hj]
      exact hbounds ⟨j, hj⟩

theorem Problem.Reals.isContinuousFeasible_ofReal {p : Problem Exact} (R : p.Reals)
    (u : Fin p.numContinuous → ℝ) :
    p.IsContinuousFeasible (Vec.ofReal u) ↔ (∀ i, (R.D *ᵥ u) i ≤ R.d i) ∧
      ∀ j : Fin p.numContinuous, p.lower j ≤ .real (u j) ∧ .real (u j) ≤ p.upper j := by
  have hrow : ∀ i : Fin p.numCoupling,
      (Scalar.sum p.numContinuous fun j => p.couplingContinuous i j * Vec.ofReal u j) =
        .real ((R.D *ᵥ u) i) := by
    intro i
    refine Scalar.sum_real fun j => ?_
    rw [R.couplingContinuous_eq i.pos j.pos, Mat.get_ofReal_fin, Vec.get_ofReal_fin, Exact.real_mul]
  constructor
  · intro h
    refine ⟨fun i => ?_, fun j => ?_⟩
    · have hcoupling := h.coupling i i.isLt
      rwa [hrow, R.couplingRhs_eq, Vec.get_ofReal_fin, Exact.real_le_real] at hcoupling
    · simpa using h.bounds j j.isLt
  · rintro ⟨hcoupling, hbounds⟩
    refine ⟨fun i hi => ?_, fun j hj => ?_⟩
    · have hlhs := hrow ⟨i, hi⟩
      dsimp only at hlhs
      rw [hlhs, R.couplingRhs_eq, Vec.get_ofReal _ hi, Exact.real_le_real]
      exact hcoupling ⟨i, hi⟩
    · rw [Vec.get_ofReal u hj]
      exact hbounds ⟨j, hj⟩

namespace Decomposition.Reals

variable {d : Decomposition Exact} (R : d.Reals) {it : Iterate Exact}

theorem continuousForm_ofReal (hl : 0 < d.problem.numContinuous) :
    d.problem.continuousQuadratic + d.problem.continuousQuadratic.transpose =
      Mat.ofReal (R.P + R.Pᵀ) := by
  rw [R.continuousQuadratic_eq hl, Mat.transpose_ofReal, Mat.ofReal_add]

theorem half_continuousForm (u : Fin d.problem.numContinuous → ℝ) :
    1 / 2 * (u ⬝ᵥ (R.P + R.Pᵀ) *ᵥ u) = u ⬝ᵥ R.P *ᵥ u := by
  have hform := dotProduct_symmetricPart u R.P
  rwa [smul_mulVec, dotProduct_smul, smul_eq_mul] at hform

theorem rowLower_le {i : ℕ} (hi : i < (d.program it).numRows) (a : ℝ) :
    (d.program it).rowLower i ≤ .real a := by
  change i < (Vec.const _ _).size at hi
  rw [Vec.size_const] at hi
  show Vec.get (Vec.const _ _) i ≤ _
  rw [Vec.get_const _ hi, Exact.neg_infinity_eq]
  exact Exact.minusInfinity_le_real a

theorem numRows_program : (d.program it).numRows = (d.program it).rowUpper.size :=
  Vec.size_const _ _

/-! ## The joint program -/

section joint

variable (hform : d.closedForm = false) (I : d.Point it)

include hform in
theorem numRelaxed_joint : d.numRelaxed = d.problem.numBinary := by
  simp [numRelaxed, hform]

include hform in
theorem quadratic_joint : (d.program it).quadratic =
    Mat.ofReal (blockMatrix
      (I.rho • (1 : Matrix (Fin d.problem.numBinary) (Fin d.problem.numBinary) ℝ)) 0 0
      (R.P + R.Pᵀ)) := by
  show d.programQuadratic it.rho = _
  unfold programQuadratic
  rw [numRelaxed_joint hform, I.rho_eq]
  refine Mat.ofFn_eq_blocks _ _ _ _ (fun i j => ?_) (fun i j => ?_) (fun i j => ?_) (fun i j => ?_)
  · by_cases hij : i = j
    · subst hij
      simp
    · simp [hij, Fin.val_ne_of_ne hij]
  · simp
  · simp
  · rw [R.continuousForm_ofReal j.pos]
    simp

include hform in
theorem rows_joint : (d.program it).rows = Mat.ofReal (blockMatrix R.A 0 R.C R.D) := by
  show d.programRows = _
  unfold programRows
  rw [numRelaxed_joint hform, hform]
  refine Mat.ofFn_eq_blocks _ _ _ _ (fun i j => ?_) (fun i j => ?_) (fun i j => ?_) (fun i j => ?_)
  · rw [R.inequalityRows_eq i.pos]
    simp
  · simp
  · rw [R.couplingBinary_eq i.pos, Mat.isEmpty_ofReal R.C i.pos j.pos]
    simp
  · rw [R.couplingContinuous_eq i.pos j.pos, Mat.isEmpty_ofReal R.D i.pos j.pos]
    simp

include hform in
theorem linear_joint :
    (d.program it).linear = Vec.ofReal (Fin.append (-I.y - I.rho • (I.x - I.s)) R.c) := by
  unfold program
  dsimp only
  rw [numRelaxed_joint hform, if_neg R.numBinary_pos.ne', I.x_eq, I.s_eq, I.y_eq, I.rho_eq,
    R.continuousLinear_eq]
  simp only [Vec.ofReal_sub, Vec.ofReal_neg, Vec.ofReal_smul, Vec.ofReal_append]

include R I hform in
theorem dimension_joint :
    (d.program it).dimension = d.problem.numBinary + d.problem.numContinuous := by
  rw [Program.dimension, R.linear_joint hform I, Vec.size_ofReal]

include R hform in
theorem constant_joint : (d.program it).constant =
    .real (I.y ⬝ᵥ (I.x - I.s) + 1 / 2 * I.rho * ((I.x - I.s) ⬝ᵥ (I.x - I.s))) := by
  unfold program
  dsimp only
  rw [numRelaxed_joint hform, if_neg R.numBinary_pos.ne', I.x_eq, I.s_eq, I.y_eq, I.rho_eq]
  simp only [Vec.ofReal_sub, Vec.dot_ofReal, Exact.zero_literal, Exact.half_literal, Exact.real_mul,
    Exact.real_add, zero_add]

include hform in
theorem rowUpper_joint : (d.program it).rowUpper = Vec.ofReal (Fin.append R.r R.d) := by
  show d.programRowUpper = _
  unfold programRowUpper
  rw [hform, R.inequalityRhs_eq, R.couplingRhs_eq, ← Vec.ofReal_append]
  rfl

include hform in
/-- **The joint program is a block of the augmented Lagrangian.** -/
theorem objective_joint (z : Fin d.problem.numBinary → ℝ) (u : Fin d.problem.numContinuous → ℝ) :
    (d.program it).objective (Vec.ofReal (Fin.append z u)) =
      .real (R.continuousValue u + residualTerm I.y I.rho (I.x - z - I.s)) := by
  have hresidual : I.x - z - I.s = I.x - I.s - z := sub_right_comm I.x z I.s
  rw [Program.objective_ofReal (R.quadratic_joint hform I) (R.linear_joint hform I)
      (R.constant_joint hform I), hresidual]
  generalize I.x - I.s = t
  rw [blockMatrix_mulVec_append, append_dotProduct_append, append_dotProduct_append, zero_mulVec,
    zero_mulVec, add_zero, zero_add, smul_mulVec, one_mulVec, dotProduct_smul, smul_eq_mul, mul_add,
    R.half_continuousForm, Problem.Reals.continuousValue, residualTerm, dotProduct_sub_self,
    dotProduct_sub, sub_dotProduct, neg_dotProduct, smul_dotProduct, smul_eq_mul, dotProduct_comm z t]
  congr 1
  ring

include R I hform in
theorem isFeasible_joint (z : Fin d.problem.numBinary → ℝ) (u : Fin d.problem.numContinuous → ℝ) :
    (d.program it).IsFeasible (Vec.ofReal (Fin.append z u)) ↔
      d.problem.IsBlockFeasible (Vec.ofReal z) (Vec.ofReal u) := by
  have hrows : (d.program it).numRows = d.problem.numInequalities + d.problem.numCoupling := by
    rw [numRows_program, R.rowUpper_joint hform, Vec.size_ofReal]
  have hbounds : (∀ i : Fin (d.problem.numBinary + d.problem.numContinuous),
      (d.program it).lower i ≤ .real (Fin.append z u i) ∧
        .real (Fin.append z u i) ≤ (d.program it).upper i) ↔
      (∀ i, 0 ≤ z i ∧ z i ≤ 1) ∧ ∀ j : Fin d.problem.numContinuous,
        d.problem.lower j ≤ .real (u j) ∧ .real (u j) ≤ d.problem.upper j := by
    have hlower : (d.program it).lower = Vec.zero d.problem.numBinary ++ d.problem.lower := by
      rw [← numRelaxed_joint hform]
      rfl
    have hupper : (d.program it).upper = Vec.const d.problem.numBinary 1.0 ++ d.problem.upper := by
      rw [← numRelaxed_joint hform]
      rfl
    rw [hlower, hupper, Exact.one_literal, Vec.zero_eq_ofReal, Vec.const_eq_ofReal,
      bounds_append_iff (Vec.size_ofReal _) (Vec.size_ofReal _)]
    simp only [Vec.get_ofReal_fin, Exact.real_le_real, Pi.zero_apply]
  rw [Program.isFeasible_ofReal (R.rows_joint hform) hrows (R.dimension_joint hform I), hbounds,
    R.isBlockFeasible_ofReal, blockMatrix_mulVec_append, zero_mulVec, add_zero]
  have hupper : (∀ i : Fin (d.problem.numInequalities + d.problem.numCoupling),
      (d.program it).rowLower i ≤ .real (Fin.append (R.A *ᵥ z) (R.C *ᵥ z + R.D *ᵥ u) i) ∧
        .real (Fin.append (R.A *ᵥ z) (R.C *ᵥ z + R.D *ᵥ u) i) ≤ (d.program it).rowUpper i) ↔
      (∀ i, (R.A *ᵥ z) i ≤ R.r i) ∧ ∀ i, (R.C *ᵥ z + R.D *ᵥ u) i ≤ R.d i := by
    rw [← append_le_append_iff, R.rowUpper_joint hform]
    apply forall_congr'
    intro i
    rw [Vec.get_ofReal_fin, Exact.real_le_real]
    exact and_iff_right (rowLower_le (by rw [hrows]; exact i.isLt) _)
  rw [hupper]
  tauto

end joint

/-! ## The program in closed form -/

section closed

variable (hform : d.closedForm = true)

include hform

omit R in
theorem numRelaxed_closed : d.numRelaxed = 0 := by
  simp [numRelaxed, hform]

theorem quadratic_closed : (d.program it).quadratic = Mat.ofReal (R.P + R.Pᵀ) := by
  show d.programQuadratic it.rho = _
  unfold programQuadratic
  dsimp only
  rw [numRelaxed_closed hform, Nat.zero_add]
  apply Mat.ofFn_eq_ofReal
  intro i j
  rw [R.continuousForm_ofReal i.pos]
  simp

theorem rows_closed : (d.program it).rows = Mat.ofReal R.D := by
  show d.programRows = _
  unfold programRows
  rw [numRelaxed_closed hform, hform]
  simp only [if_true, Nat.zero_add]
  apply Mat.ofFn_eq_ofReal
  intro i j
  rw [R.couplingContinuous_eq i.pos j.pos, Mat.isEmpty_ofReal R.D i.pos j.pos]
  simp

theorem linear_closed : (d.program it).linear = Vec.ofReal R.c := by
  unfold program
  dsimp only
  rw [numRelaxed_closed hform, if_pos rfl, R.continuousLinear_eq]

include R in
theorem dimension_closed : (d.program it).dimension = d.problem.numContinuous := by
  rw [Program.dimension, R.linear_closed hform, Vec.size_ofReal]

omit R in
theorem constant_closed : (d.program it).constant = .real 0 := by
  unfold program
  dsimp only
  rw [numRelaxed_closed hform, if_pos rfl, Exact.zero_literal]

theorem objective_closed (u : Fin d.problem.numContinuous → ℝ) :
    (d.program it).objective (Vec.ofReal u) = .real (R.continuousValue u) := by
  rw [Program.objective_ofReal (R.quadratic_closed hform) (R.linear_closed hform)
    (constant_closed hform), R.half_continuousForm, add_zero, Problem.Reals.continuousValue]

theorem rowUpper_closed : (d.program it).rowUpper = Vec.ofReal R.d := by
  show d.programRowUpper = _
  unfold programRowUpper
  rw [if_pos hform, R.couplingRhs_eq]

theorem isFeasible_closed (u : Fin d.problem.numContinuous → ℝ) :
    (d.program it).IsFeasible (Vec.ofReal u) ↔ (∀ i, (R.D *ᵥ u) i ≤ R.d i) ∧
      ∀ j : Fin d.problem.numContinuous,
        d.problem.lower j ≤ .real (u j) ∧ .real (u j) ≤ d.problem.upper j := by
  have hrows : (d.program it).numRows = d.problem.numCoupling := by
    rw [numRows_program, R.rowUpper_closed hform, Vec.size_ofReal]
  have hlower : (d.program it).lower = d.problem.lower := by
    show Vec.const d.numRelaxed 0.0 ++ d.problem.lower = _
    rw [numRelaxed_closed hform, Vec.append_of_size_zero_left _ (Vec.size_const _ _)]
  have hupper : (d.program it).upper = d.problem.upper := by
    show Vec.const d.numRelaxed 1.0 ++ d.problem.upper = _
    rw [numRelaxed_closed hform, Vec.append_of_size_zero_left _ (Vec.size_const _ _)]
  rw [Program.isFeasible_ofReal (R.rows_closed hform) hrows (R.dimension_closed hform), hlower, hupper,
    R.rowUpper_closed hform]
  refine and_congr (forall_congr' fun i => ?_) Iff.rfl
  rw [Vec.get_ofReal_fin, Exact.real_le_real]
  exact and_iff_right (rowLower_le (by rw [hrows]; exact i.isLt) _)

include R in
theorem isBlockFeasible_closed (z : Fin d.problem.numBinary → ℝ)
    (u : Fin d.problem.numContinuous → ℝ) :
    d.problem.IsBlockFeasible (Vec.ofReal z) (Vec.ofReal u) ↔
      (∀ i, 0 ≤ z i ∧ z i ≤ 1) ∧ (d.program it).IsFeasible (Vec.ofReal u) := by
  have hempty : IsEmpty (Fin d.problem.numInequalities) := by
    rw [R.closed_inequalities hform]
    infer_instance
  rw [R.isBlockFeasible_ofReal, R.isFeasible_closed hform, R.closed_coupling hform, zero_mulVec,
    zero_add]
  simp

end closed

end Decomposition.Reals

end BinarySplitting
