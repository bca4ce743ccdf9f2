import BinarySplitting.Proofs.Params.Admissible
import BinarySplitting.Proofs.Problem.Reals

/-!
# Decompositions over the reals

What the subproblems of an accepted problem share, as real data (`Decomposition.Reals`): the part
of the binary problem that no iterate changes is the binary part of the objective with the
equalities as a weighted square, and where the relaxed copy has a closed form no row touches it.
-/

namespace BinarySplitting

open Matrix

theorem Params.exists_weights {params : Params Exact} (h : params.validate = .ok ()) :
    ∃ c β : ℝ, 0 ≤ c ∧ 0 ≤ β ∧ params.equalityWeight = .real c ∧ params.beta = .real β := by
  obtain ⟨hweight, hfinite⟩ := (Params.validate_ok_iff.1 h).equalityWeight
  obtain ⟨hbeta, hfinite'⟩ := (Params.validate_ok_iff.1 h).beta
  obtain ⟨c, hc⟩ := Exact.isFinite_iff.1 hfinite
  obtain ⟨β, hβ⟩ := Exact.isFinite_iff.1 hfinite'
  refine ⟨c, β, ?_, ?_, hc, hβ⟩
  · simpa [hc] using hweight
  · simpa [hβ] using hbeta

theorem Mat.any_ofReal {rows cols : ℕ} (M : Matrix (Fin rows) (Fin cols) ℝ) (test : Exact → Bool) :
    (Mat.ofReal M).any test = true ↔ ∃ i j, test (.real (M i j)) = true := by
  unfold Mat.any
  simp [Mat.ofReal, Vector.any_eq_true, Fin.exists_iff]

namespace Decomposition

structure Reals (dec : Decomposition Exact) extends Problem.Reals dec.problem where
  weight : ℝ
  beta : ℝ
  beta_nonneg : 0 ≤ beta
  weight_eq : dec.params.equalityWeight = .real weight
  beta_eq : dec.params.beta = .real beta
  quadratic_eq : dec.quadratic = Mat.ofReal ((1 / 2 : ℝ) • (Q + Qᵀ) + (1 / 2 * weight) • Gᵀ * G)
  linear_eq : dec.linear = Vec.ofReal (a - (weight • Gᵀ) *ᵥ b)
  shift_eq : dec.constant = .real (constant + 1 / 2 * weight * (b ⬝ᵥ b))
  closed_inequalities : dec.closedForm = true → dec.problem.numInequalities = 0
  closed_coupling : dec.closedForm = true → C = 0

variable {d : Decomposition Exact} (R : d.problem.Reals) {c : ℝ}

theorem closed_coupling_eq_zero (h : touchesBinaries d.problem = false) : R.C = 0 := by
  funext i j
  have hcoupling := R.couplingBinary_eq i.pos
  have hnonempty := Mat.isEmpty_ofReal R.C i.pos R.numBinary_pos
  rw [touchesBinaries, hcoupling, hnonempty, decide_eq_true i.pos] at h
  have hnone : ¬ ∃ i j, (!Scalar.same (.real (R.C i j)) (0.0 : Exact)) = true := by
    rw [← Mat.any_ofReal R.C fun a => !Scalar.same a 0.0]
    simpa using h
  by_contra hentry
  exact hnone ⟨i, j, by simpa [← Bool.not_eq_true, Exact.same_real] using hentry⟩

/-! ## The parts that no iterate changes -/

theorem ofProblem_quadratic_ofReal (hd : d = ofProblem d.problem d.params)
    (hc : d.params.equalityWeight = .real c) :
    d.quadratic = Mat.ofReal ((1 / 2 : ℝ) • (R.Q + R.Qᵀ) + (1 / 2 * c) • R.Gᵀ * R.G) := by
  rw [congrArg Decomposition.quadratic hd]
  unfold ofProblem
  dsimp only
  split
  · next hm =>
    have hempty : IsEmpty (Fin d.problem.numEqualities) := by rw [hm]; infer_instance
    have hgram : (1 / 2 * c) • R.Gᵀ * R.G = 0 := by
      funext i j
      simp [Matrix.mul_apply]
    rw [hgram, add_zero, R.binaryQuadratic_eq, Mat.symmetricPart_ofReal]
  · next hm =>
    rw [R.binaryQuadratic_eq, R.equalityRows_eq (Nat.pos_of_ne_zero hm), hc, Mat.symmetricPart_ofReal,
      Mat.transpose_ofReal, Exact.half_literal, Exact.real_mul, Mat.ofReal_smul, Mat.ofReal_mul,
      Mat.ofReal_add]

theorem ofProblem_linear_ofReal (hd : d = ofProblem d.problem d.params)
    (hc : d.params.equalityWeight = .real c) :
    d.linear = Vec.ofReal (R.a - (c • R.Gᵀ) *ᵥ R.b) := by
  rw [congrArg Decomposition.linear hd]
  unfold ofProblem
  dsimp only
  split
  · next hm =>
    have hempty : IsEmpty (Fin d.problem.numEqualities) := by rw [hm]; infer_instance
    have hzero : (c • R.Gᵀ) *ᵥ R.b = 0 := by
      funext i
      simp [mulVec, dotProduct]
    rw [hzero, sub_zero, R.binaryLinear_eq]
  · next hm =>
    rw [R.binaryLinear_eq, R.equalityRows_eq (Nat.pos_of_ne_zero hm), R.equalityRhs_eq, hc,
      Mat.transpose_ofReal, Mat.ofReal_smul, Mat.mulVec_ofReal, Vec.ofReal_sub]

theorem ofProblem_constant_ofReal (hd : d = ofProblem d.problem d.params)
    (hc : d.params.equalityWeight = .real c) :
    d.constant = .real (R.constant + 1 / 2 * c * (R.b ⬝ᵥ R.b)) := by
  rw [congrArg Decomposition.constant hd]
  unfold ofProblem
  dsimp only
  split
  · next hm =>
    have hempty : IsEmpty (Fin d.problem.numEqualities) := by rw [hm]; infer_instance
    have hzero : R.b ⬝ᵥ R.b = 0 := by simp [dotProduct]
    rw [hzero, mul_zero, add_zero, R.constant_eq]
  · next hm =>
    rw [R.constant_eq, R.equalityRhs_eq, hc, Vec.dot_ofReal, Exact.half_literal, Exact.real_mul,
      Exact.real_mul, Exact.real_add]

theorem exists_reals {kernels : Kernels Exact} {p : Problem Exact} {params : Params Exact}
    (h : create kernels p params = .ok d) : Nonempty d.Reals := by
  obtain ⟨hproblem, hparams, haccepted, hvalid⟩ := create_ok h
  have hd : d = ofProblem p params := (create_eq_ok_iff.1 h).2.2
  have hform := ofProblem_closedForm p params
  rw [← hproblem, ← hparams] at hd hform
  rw [← hd] at hform
  obtain ⟨R⟩ := haccepted.exists_reals
  obtain ⟨c, β, hc, hβ, hweight, hbeta⟩ := Params.exists_weights hvalid
  exact ⟨{
    toReals := R
    weight := c
    beta := β
    beta_nonneg := hβ
    weight_eq := hweight
    beta_eq := hbeta
    quadratic_eq := ofProblem_quadratic_ofReal R hd hweight
    linear_eq := ofProblem_linear_ofReal R hd hweight
    shift_eq := ofProblem_constant_ofReal R hd hweight
    closed_inequalities := fun hclosed => by
      rw [hform, Bool.and_eq_true] at hclosed
      exact of_decide_eq_true hclosed.1
    closed_coupling := fun hclosed => by
      rw [hform, Bool.and_eq_true, Bool.not_eq_true'] at hclosed
      exact closed_coupling_eq_zero R hclosed.2 }⟩

end Decomposition

end BinarySplitting
