import BinarySplitting.Engine.Start
import BinarySplitting.Proofs.Problem.Accepted
import BinarySplitting.Proofs.Qubo.Minimiser
import BinarySplitting.Proofs.Scalar.Extrema

/-!
# Unconstrained problems

A quadratic form in binary variables and nothing else is the smallest kind of problem. Over exact
numbers every symmetric form with at least one variable makes an accepted one
(`Problem.unconstrained_accepted`), which the standard parameters decompose
(`Decomposition.create_unconstrained`). So the statements about accepted problems are about
something.
-/

namespace BinarySplitting

open Matrix

variable {α : Type} [Scalar α] {n : ℕ}

/-! ## Greatest absolute values -/

theorem Mat.exists_maxAbs {m : Mat α} (hr : 0 < m.rows) (hc : 0 < m.cols) :
    ∃ i < m.rows, ∃ j < m.cols, m.maxAbs = Scalar.abs (m i j) := by
  obtain ⟨i, hi, hrow⟩ := Scalar.exists_greatest_eq (m.rows - 1) fun i =>
    Scalar.greatest (m.cols - 1) fun j => Scalar.abs (m i j)
  obtain ⟨j, hj, hentry⟩ := Scalar.exists_greatest_eq (m.cols - 1) fun j => Scalar.abs (m i j)
  exact ⟨i, by omega, j, by omega, hrow.trans hentry⟩

theorem Mat.exists_maxAbs_ofReal (M : Matrix (Fin n) (Fin n) ℝ) (hn : 0 < n) :
    ∃ i j, (Mat.ofReal M).maxAbs = .real |M i j| := by
  obtain ⟨i, hi, j, hj, h⟩ := (Mat.ofReal M).exists_maxAbs hn hn
  refine ⟨⟨i, hi⟩, ⟨j, hj⟩, ?_⟩
  rw [h]
  exact congrArg Scalar.abs (Mat.get_ofReal M hi hj)

/-! ## Problems -/

namespace Problem

/-- The problem of a quadratic form in binary variables, without constraints. -/
def unconstrained (q : Mat α) (a : Vec α) : Problem α where
  binaryQuadratic := q
  binaryLinear := a
  continuousQuadratic := .empty
  continuousLinear := .empty
  constant := 0.0
  equalityRows := .empty
  equalityRhs := .empty
  inequalityRows := .empty
  inequalityRhs := .empty
  couplingBinary := .empty
  couplingContinuous := .empty
  couplingRhs := .empty
  lower := .empty
  upper := .empty
  binaryNames := []
  continuousNames := []

/-- A form whose entries differ from those of its transpose by no more than the tolerance counts as symmetric. -/
theorem isSymmetric_ofReal_of_near {M : Matrix (Fin n) (Fin n) ℝ} (hM : ∀ i j, |M i j - M j i| ≤ 1e-9)
    (hn : 0 < n) : IsSymmetric (Mat.ofReal M) := by
  obtain ⟨i, j, hgreatest⟩ := Mat.exists_maxAbs_ofReal (M - Mᵀ) hn
  obtain ⟨k, l, hscale⟩ := Mat.exists_maxAbs_ofReal M hn
  have htolerance : (tolerance : Exact) = .real 1e-9 := rfl
  unfold IsSymmetric
  rw [Mat.transpose_ofReal, Mat.ofReal_sub, hgreatest, hscale, htolerance, Exact.one_literal, Exact.larger_real,
    Exact.real_mul, Exact.real_lt_real, not_lt]
  calc |(M - Mᵀ) i j| ≤ 1e-9 := hM i j
    _ ≤ 1e-9 * max 1 |M k l| := le_mul_of_one_le_right (by norm_num) (le_max_left _ _)

theorem isSymmetric_ofReal {M : Matrix (Fin n) (Fin n) ℝ} (hM : M.IsSymm) (hn : 0 < n) :
    IsSymmetric (Mat.ofReal M) := by
  refine isSymmetric_ofReal_of_near (fun i j => ?_) hn
  rw [hM.apply, sub_self, abs_zero]
  norm_num

theorem unconstrained_accepted {Q : Matrix (Fin n) (Fin n) ℝ} (hQ : Q.IsSymm) (a : Fin n → ℝ)
    (hn : 0 < n) (spectrum : Mat Exact → Vec Exact) :
    (unconstrained (Mat.ofReal Q) (Vec.ofReal a)).Accepted spectrum := by
  have hcount : (unconstrained (Mat.ofReal Q) (Vec.ofReal a)).numBinary = n := Vec.size_ofReal a
  have hempty : ∀ k, (Mat.empty : Mat Exact).Fits 0 k := fun k => Or.inl ⟨Or.inl rfl, rfl⟩
  have hrows : (Mat.empty : Mat Exact).allFinite = true := by simp [Mat.allFinite, Mat.all, Mat.empty]
  have hfinite : (Vec.empty : Vec Exact).allFinite = true := by simp [Vec.allFinite, Vec.empty]
  refine { numBinary_pos := ?_, binaryQuadratic := ?_, binaryQuadratic_finite := ?_,
           binaryLinear_finite := ?_, binaryQuadratic_symmetric := isSymmetric_ofReal hQ hn,
           continuousQuadratic := hempty _, continuousQuadratic_finite := hrows,
           continuousLinear_finite := hfinite, continuousQuadratic_convex := nofun,
           constant_finite := ?_, equalityRows := hempty _, equalityRows_finite := hrows,
           equalityRhs_finite := hfinite, inequalityRows := hempty _, inequalityRows_finite := hrows,
           inequalityRhs_finite := hfinite, couplingBinary := hempty _, couplingContinuous := hempty _,
           couplingBinary_finite := hrows, couplingContinuous_finite := hrows,
           couplingRhs_finite := hfinite, lower_size := rfl, upper_size := rfl, hasValue := nofun,
           binaryNames := Or.inl rfl, continuousNames := Or.inl rfl }
  · rw [hcount]
    exact hn
  · rw [hcount]
    exact Or.inr (by simp [unconstrained, Mat.hasShape])
  · exact Mat.allFinite_ofReal Q
  · exact Vec.allFinite_ofReal a
  · exact Exact.isFinite_iff.2 ⟨0, Exact.zero_literal⟩

end Problem

/-! ## Parameters -/

theorem Params.standard_validate : (Params.standard : Params Exact).validate = .ok () := by
  rw [Params.validate_eq_ok_iff]
  simp only [Params.checks, Params.standard, Params.isWeight, Exact.literal, Exact.infinity_eq]
  simp [Exact.isFinite_iff]
  norm_num

/-! ## Decomposition -/

namespace Decomposition

theorem create_unconstrained (kernels : Kernels Exact) {Q : Matrix (Fin n) (Fin n) ℝ} (hQ : Q.IsSymm)
    (a : Fin n → ℝ) (hn : 0 < n) :
    create kernels (.unconstrained (Mat.ofReal Q) (Vec.ofReal a)) .standard =
      .ok (ofProblem (.unconstrained (Mat.ofReal Q) (Vec.ofReal a)) .standard) :=
  create_eq_ok_iff.2 ⟨Problem.unconstrained_accepted hQ a hn kernels.spectrum, Params.standard_validate,
    rfl⟩

theorem needsProgram_unconstrained (q : Mat α) (a : Vec α) (params : Params α) :
    (ofProblem (.unconstrained q a) params).needsProgram = false := by
  rfl

end Decomposition

end BinarySplitting
