import Mathlib.LinearAlgebra.Matrix.DotProduct
import Mathlib.Tactic.Linarith
import BinarySplitting.Proofs.Decomposition.Lagrangian

/-!
# Closed forms

The relaxed copy without rows, the slack and the multipliers are updated by formulas. In each
entry the first two minimise a parabola, over the unit interval (`residualTerm_clamp_le`) and over
the line (`slack_term_le`); the third raises the augmented Lagrangian by a known amount
(`Decomposition.Reals.lagrangian_dual`).
-/

namespace BinarySplitting

open Matrix

/-! ## The unit interval -/

/-- The nearest point of the unit interval. -/
noncomputable def unitClamp (a : ℝ) : ℝ := min (max a 0) 1

theorem unitClamp_mem (a : ℝ) : 0 ≤ unitClamp a ∧ unitClamp a ≤ 1 :=
  ⟨le_min (le_max_right a 0) zero_le_one, min_le_right _ _⟩

theorem unitClamp_of_mem {a : ℝ} (h : 0 ≤ a ∧ a ≤ 1) : unitClamp a = a := by
  unfold unitClamp
  rw [max_eq_left h.1, min_eq_left h.2]

theorem unitClamp_nearest (a : ℝ) {v : ℝ} (hv : 0 ≤ v ∧ v ≤ 1) :
    (unitClamp a - a) * (unitClamp a - a) + (v - unitClamp a) * (v - unitClamp a) ≤ (v - a) * (v - a) := by
  rcases le_total a 0 with hneg | hpos
  · have hclamp : unitClamp a = 0 := by
      rw [unitClamp, max_eq_right hneg, min_eq_left zero_le_one]
    rw [hclamp]
    nlinarith [hv.1]
  · rcases le_total a 1 with hle | hge
    · rw [unitClamp_of_mem ⟨hpos, hle⟩, sub_self, mul_zero, zero_add]
    · have hclamp : unitClamp a = 1 := by
        rw [unitClamp, max_eq_left hpos, min_eq_right hge]
      rw [hclamp]
      nlinarith [hv.2]

theorem Vec.withinUnit_ofReal {n : ℕ} (f : Fin n → ℝ) :
    (ofReal f).withinUnit = ofReal fun i => unitClamp (f i) := by
  refine map_ofReal (fun a => ?_) f
  rw [Exact.zero_literal, Exact.one_literal]
  unfold Scalar.larger Scalar.smaller unitClamp
  by_cases hneg : a < 0
  · have hone : ¬ Exact.real 1 < .real 0 := by
      rw [Exact.real_lt_real]
      norm_num
    rw [if_pos (Exact.real_lt_real.2 hneg), if_neg hone, max_eq_right hneg.le, min_eq_left zero_le_one]
  · rw [if_neg (mt Exact.real_lt_real.1 hneg), max_eq_left (not_lt.1 hneg)]
    by_cases hone : 1 < a
    · rw [if_pos (Exact.real_lt_real.2 hone), min_eq_right hone.le]
    · rw [if_neg (mt Exact.real_lt_real.1 hone), min_eq_left (not_lt.1 hone)]

/-! ## Parabolas -/

variable {n : ℕ} {ρ : ℝ}

theorem residualTerm_eq_sum (y r : Fin n → ℝ) :
    residualTerm y ρ r = ∑ i, (y i * r i + 1 / 2 * ρ * (r i * r i)) := by
  rw [residualTerm, dotProduct, dotProduct, Finset.mul_sum, ← Finset.sum_add_distrib]

theorem residualTerm_zero (y : Fin n → ℝ) (ρ : ℝ) : residualTerm y ρ 0 = 0 := by
  simp [residualTerm]

theorem residualTerm_nonneg (hρ : 0 < ρ) (residual : Fin n → ℝ) :
    0 ≤ residualTerm 0 ρ residual := by
  rw [residualTerm, zero_dotProduct, zero_add]
  exact mul_nonneg (by positivity) (Finset.sum_nonneg fun i _ => mul_self_nonneg _)

theorem eq_zero_of_residualTerm_nonpos (hρ : 0 < ρ) {residual : Fin n → ℝ}
    (h : residualTerm 0 ρ residual ≤ 0) : residual = 0 := by
  have hzero := le_antisymm h (residualTerm_nonneg hρ residual)
  rw [residualTerm, zero_dotProduct, zero_add] at hzero
  exact dotProduct_self_eq_zero.1 ((mul_eq_zero.1 hzero).resolve_left (by positivity))

/-- Away from the relaxed copy in closed form the value grows at least as it does around its centre. -/
theorem residualTerm_clamp_add_le (hρ : 0 < ρ) (y t : Fin n → ℝ) {v w : Fin n → ℝ}
    (hw : w = fun i => unitClamp ((t + ρ⁻¹ • y) i)) (hv : ∀ i, 0 ≤ v i ∧ v i ≤ 1) :
    residualTerm y ρ (t - w) + residualTerm 0 ρ (v - w) ≤ residualTerm y ρ (t - v) := by
  rw [residualTerm_eq_sum, residualTerm_eq_sum, residualTerm_eq_sum, ← Finset.sum_add_distrib]
  apply Finset.sum_le_sum
  intro i _
  have hcentre : y i = ρ * ((t + ρ⁻¹ • y) i - t i) := by
    simp [hρ.ne']
  have hnearest := unitClamp_nearest ((t + ρ⁻¹ • y) i) (hv i)
  rw [hw]
  simp only [Pi.sub_apply, Pi.zero_apply]
  generalize (t + ρ⁻¹ • y) i = a at hcentre hnearest ⊢
  rw [hcentre]
  nlinarith [mul_le_mul_of_nonneg_left hnearest hρ.le]

theorem residualTerm_clamp_le (hρ : 0 < ρ) (y t : Fin n → ℝ) {v : Fin n → ℝ}
    (hv : ∀ i, 0 ≤ v i ∧ v i ≤ 1) :
    residualTerm y ρ (t - fun i => unitClamp ((t + ρ⁻¹ • y) i)) ≤ residualTerm y ρ (t - v) :=
  le_of_add_le_of_nonneg_left (residualTerm_clamp_add_le hρ y t rfl hv) (residualTerm_nonneg hρ _)

theorem eq_of_residualTerm_le_clamp (hρ : 0 < ρ) (y t : Fin n → ℝ) {v w : Fin n → ℝ}
    (hw : w = fun i => unitClamp ((t + ρ⁻¹ • y) i)) (hv : ∀ i, 0 ≤ v i ∧ v i ≤ 1)
    (hle : residualTerm y ρ (t - v) ≤ residualTerm y ρ (t - w)) : v = w := by
  have hgrowth := residualTerm_clamp_add_le hρ y t hw hv
  exact sub_eq_zero.1 (eq_zero_of_residualTerm_nonpos hρ (by linarith))

theorem slack_term_le {β : ℝ} (hβρ : 0 < β + ρ) (y w s : Fin n → ℝ) :
    1 / 2 * β * (((β + ρ)⁻¹ • (y + ρ • w)) ⬝ᵥ ((β + ρ)⁻¹ • (y + ρ • w))) +
        residualTerm y ρ (w - (β + ρ)⁻¹ • (y + ρ • w)) ≤
      1 / 2 * β * (s ⬝ᵥ s) + residualTerm y ρ (w - s) := by
  rw [residualTerm_eq_sum, residualTerm_eq_sum, dotProduct, dotProduct, Finset.mul_sum, Finset.mul_sum,
    ← Finset.sum_add_distrib, ← Finset.sum_add_distrib]
  apply Finset.sum_le_sum
  intro i _
  have hcentre : (β + ρ) * ((β + ρ)⁻¹ • (y + ρ • w)) i = y i + ρ * w i := by
    simp [hβρ.ne']
  simp only [Pi.sub_apply]
  generalize ((β + ρ)⁻¹ • (y + ρ • w)) i = a at hcentre ⊢
  have hy : y i = (β + ρ) * a - ρ * w i := by linarith
  rw [hy]
  nlinarith [mul_nonneg hβρ.le (mul_self_nonneg (s i - a))]

theorem residualTerm_dual (y r : Fin n → ℝ) :
    residualTerm (y + ρ • r) ρ r = residualTerm y ρ r + ρ * (r ⬝ᵥ r) := by
  rw [residualTerm, residualTerm, add_dotProduct, smul_dotProduct, smul_eq_mul]
  ring

/-- The update of the multipliers adds the penalty times the square of the residual. -/
theorem Decomposition.Reals.lagrangian_dual {d : Decomposition Exact} (R : d.Reals)
    (x z : Fin d.problem.numBinary → ℝ) (u : Fin d.problem.numContinuous → ℝ)
    (s y : Fin d.problem.numBinary → ℝ) :
    R.lagrangian x z u s (y + ρ • (x - z - s)) ρ =
      R.lagrangian x z u s y ρ + ρ * ((x - z - s) ⬝ᵥ (x - z - s)) := by
  unfold Decomposition.Reals.lagrangian
  rw [residualTerm_dual]
  ring

end BinarySplitting
