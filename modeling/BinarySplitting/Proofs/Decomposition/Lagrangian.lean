import BinarySplitting.Proofs.Decomposition.Reals
import BinarySplitting.Proofs.Qubo.Minimiser

/-!
# The augmented Lagrangian

The function that all subproblems of a pass are blocks of (`Decomposition.lagrangian`), and the
binary problem as its block in `x`: at every vector, binary or not, the value of the binary problem
is the part of the augmented Lagrangian in which `x` occurs, with the constant
(`Decomposition.Reals.value_qubo`).
-/

namespace BinarySplitting

open Matrix

section generic

variable {α : Type} [Scalar α]

/-- The weighted square of how the equalities are missed. -/
def Problem.equalityPenalty (p : Problem α) (weight : α) (x : Vec α) : α :=
  if p.numEqualities = 0 then 0.0
  else
    let miss := p.equalityRows.mulVec x - p.equalityRhs
    0.5 * weight * miss.dot miss

/-- The augmented Lagrangian. -/
def Decomposition.lagrangian (d : Decomposition α) (x z u s y : Vec α) (rho : α) : α :=
  let residual := x - z - s
  d.problem.binaryObjective x + d.problem.equalityPenalty d.params.equalityWeight x +
    d.problem.continuousObjective u + d.problem.constant + 0.5 * d.params.beta * s.dot s +
    y.dot residual + 0.5 * rho * residual.dot residual

end generic

/-- The real vectors and the penalty of an iterate. -/
structure Decomposition.Point (d : Decomposition Exact) (it : Iterate Exact) where
  x : Fin d.problem.numBinary → ℝ
  z : Fin d.problem.numBinary → ℝ
  s : Fin d.problem.numBinary → ℝ
  y : Fin d.problem.numBinary → ℝ
  u : Fin d.problem.numContinuous → ℝ
  rho : ℝ
  x_eq : it.x = Vec.ofReal x
  z_eq : it.z = Vec.ofReal z
  s_eq : it.s = Vec.ofReal s
  y_eq : it.y = Vec.ofReal y
  u_eq : it.u = Vec.ofReal u
  rho_eq : it.rho = .real rho

namespace Decomposition.Point

variable {d : Decomposition Exact} {it : Iterate Exact} (I : d.Point it)

/-- The point after the binary vector was set. -/
abbrev setBinary (x : Fin d.problem.numBinary → ℝ) : d.Point { it with x := Vec.ofReal x } :=
  { I with x := x, x_eq := rfl }

/-- The point after the relaxed copy and the continuous vector were set. -/
abbrev setPair (z : Fin d.problem.numBinary → ℝ) (u : Fin d.problem.numContinuous → ℝ) :
    d.Point { it with z := Vec.ofReal z, u := Vec.ofReal u } :=
  { I with z := z, u := u, z_eq := rfl, u_eq := rfl }

end Decomposition.Point

/-- The part of the augmented Lagrangian in the residual, over the reals. -/
noncomputable def residualTerm {n : ℕ} (y : Fin n → ℝ) (ρ : ℝ) (residual : Fin n → ℝ) : ℝ :=
  y ⬝ᵥ residual + 1 / 2 * ρ * (residual ⬝ᵥ residual)

namespace Decomposition.Reals

variable {d : Decomposition Exact} (R : d.Reals)

/-- The part of the augmented Lagrangian in the binary vector alone, with the constant. -/
noncomputable def binaryPart (x : Fin d.problem.numBinary → ℝ) : ℝ :=
  R.binaryValue x + 1 / 2 * R.weight * (R.equalityMiss x ⬝ᵥ R.equalityMiss x) + R.constant

noncomputable def lagrangian (x z : Fin d.problem.numBinary → ℝ) (u : Fin d.problem.numContinuous → ℝ)
    (s y : Fin d.problem.numBinary → ℝ) (ρ : ℝ) : ℝ :=
  R.binaryPart x + R.continuousValue u + 1 / 2 * R.beta * (s ⬝ᵥ s) + residualTerm y ρ (x - z - s)

theorem equalityPenalty_ofReal (x : Fin d.problem.numBinary → ℝ) :
    d.problem.equalityPenalty d.params.equalityWeight (Vec.ofReal x) =
      .real (1 / 2 * R.weight * (R.equalityMiss x ⬝ᵥ R.equalityMiss x)) := by
  unfold Problem.equalityPenalty
  split
  · next hm =>
    have hempty : IsEmpty (Fin d.problem.numEqualities) := by rw [hm]; infer_instance
    simp [dotProduct]
  · next hm =>
    dsimp only
    rw [R.equalityMiss_ofReal (Nat.pos_of_ne_zero hm), R.weight_eq, Vec.dot_ofReal,
      Exact.half_literal, Exact.real_mul, Exact.real_mul]

theorem lagrangian_ofReal (x z : Fin d.problem.numBinary → ℝ) (u : Fin d.problem.numContinuous → ℝ)
    (s y : Fin d.problem.numBinary → ℝ) (ρ : ℝ) :
    d.lagrangian (Vec.ofReal x) (Vec.ofReal z) (Vec.ofReal u) (Vec.ofReal s) (Vec.ofReal y) (.real ρ) =
      .real (R.lagrangian x z u s y ρ) := by
  unfold Decomposition.lagrangian
  rw [R.binaryObjective_ofReal, R.equalityPenalty_ofReal, R.continuousObjective_ofReal, R.constant_eq,
    R.beta_eq]
  simp only [Vec.ofReal_sub, Vec.dot_ofReal, Exact.half_literal, Exact.real_mul, Exact.real_add,
    Exact.real_inj]
  unfold lagrangian binaryPart residualTerm
  ring

/-! ## The block in the binary vector -/

theorem dotProduct_form (x : Fin d.problem.numBinary → ℝ) :
    x ⬝ᵥ ((1 / 2 : ℝ) • (R.Q + R.Qᵀ) + (1 / 2 * R.weight) • R.Gᵀ * R.G) *ᵥ x =
      x ⬝ᵥ R.Q *ᵥ x + 1 / 2 * R.weight * (R.G *ᵥ x ⬝ᵥ R.G *ᵥ x) := by
  rw [add_mulVec, dotProduct_add, dotProduct_symmetricPart, smul_mul, smul_mulVec, dotProduct_smul,
    dotProduct_gram, smul_eq_mul]

theorem equalityMiss_square (x : Fin d.problem.numBinary → ℝ) :
    R.equalityMiss x ⬝ᵥ R.equalityMiss x =
      R.G *ᵥ x ⬝ᵥ R.G *ᵥ x - 2 * (R.Gᵀ *ᵥ R.b ⬝ᵥ x) + R.b ⬝ᵥ R.b := by
  have hcross : R.Gᵀ *ᵥ R.b ⬝ᵥ x = R.b ⬝ᵥ R.G *ᵥ x := by
    rw [mulVec_transpose, ← dotProduct_mulVec]
  rw [Problem.Reals.equalityMiss, sub_dotProduct, dotProduct_sub, dotProduct_sub, hcross,
    dotProduct_comm (R.G *ᵥ x) R.b]
  ring

theorem qubo_eq_ofReal {it : Iterate Exact} (I : d.Point it) : d.qubo it = Qubo.ofReal
    ((1 / 2 : ℝ) • (R.Q + R.Qᵀ) + (1 / 2 * R.weight) • R.Gᵀ * R.G + (1 / 2 * I.rho) • 1)
    (R.a - (R.weight • R.Gᵀ) *ᵥ R.b + I.y - I.rho • (I.z + I.s))
    (R.constant + 1 / 2 * R.weight * (R.b ⬝ᵥ R.b) - I.y ⬝ᵥ (I.z + I.s) +
      1 / 2 * I.rho * ((I.z + I.s) ⬝ᵥ (I.z + I.s))) := by
  unfold qubo Qubo.ofReal
  rw [I.z_eq, I.s_eq, I.y_eq, I.rho_eq, R.quadratic_eq, R.linear_eq, R.shift_eq]
  simp only [Vec.ofReal_add, Vec.ofReal_sub, Vec.ofReal_smul, Vec.dot_ofReal, Exact.half_literal,
    Exact.real_mul, Exact.real_add, Exact.real_sub, Mat.addDiagonal_ofReal]

/-- **The binary problem is a block of the augmented Lagrangian**, at every real vector. -/
theorem value_qubo {it : Iterate Exact} (I : d.Point it) (x : Fin d.problem.numBinary → ℝ) :
    (d.qubo it).value (Vec.ofReal x) =
      .real (R.binaryPart x + residualTerm I.y I.rho (x - I.z - I.s)) := by
  have hresidual : x - I.z - I.s = x - (I.z + I.s) := sub_sub x I.z I.s
  rw [R.qubo_eq_ofReal I, Qubo.value_ofReal, add_mulVec, dotProduct_add, R.dotProduct_form,
    smul_mulVec, one_mulVec, dotProduct_smul, smul_eq_mul, binaryPart, residualTerm, hresidual,
    R.equalityMiss_square, dotProduct_sub_self, Problem.Reals.binaryValue, dotProduct_sub,
    sub_dotProduct, add_dotProduct, sub_dotProduct, smul_mulVec, smul_dotProduct, smul_dotProduct,
    smul_eq_mul, smul_eq_mul]
  congr 1
  ring

end Decomposition.Reals

end BinarySplitting
