import BinarySplitting.Proofs.Linear.Ldlt
import BinarySplitting.Proofs.Splitting.RealIteration

/-!
# Programs with one variable

The programs `½ h w² + f w` over an interval from zero, with one row `a w ≥ bound`. Their data are
given by five numbers, the system of the iteration is a single number, and the kernels of the
library solve it by a division, so the first iteration can be followed by hand.
-/

namespace BinarySplitting

open Matrix Splitting

/-- The program `½ h w² + f w` over `w ≥ 0` up to a bound, with the row `a w ≥ bound`. -/
def Program.line (h f a bound : ℝ) (upper : Exact) : Program Exact where
  quadratic := .single h
  linear := .single f
  constant := .real 0
  rows := .single a
  rowLower := .single bound
  rowUpper := ⟨#[.plusInfinity]⟩
  lower := .single 0
  upper := ⟨#[upper]⟩

namespace Program

variable (h f a bound : ℝ) (upper : Exact)

def lineReals : (line h f a bound upper).Reals where
  H := Matrix.of fun _ _ : Fin 1 => h
  f := fun _ : Fin 1 => f
  A := Matrix.of fun _ _ : Fin 1 => a
  quadratic_eq := rfl
  linear_eq := Vec.single_eq_ofReal fun _ => f
  rows_eq _ := rfl
  rowUpper_size := rfl
  lower_size := rfl
  upper_size := rfl

theorem stacked_mulVec_line (w : Fin 1 → ℝ) :
    (lineReals h f a bound upper).stacked *ᵥ w = Fin.append (fun _ : Fin 1 => a * w 0) w := by
  refine ((lineReals h f a bound upper).stacked_mulVec w).trans ?_
  congr 1
  funext i
  change ∑ j : Fin 1, a * w j = a * w 0
  exact Fin.sum_univ_one _

theorem rows_line : (Constraints.ofProgram (line h f a bound upper)).rows =
    Mat.ofReal (Matrix.of fun (i : Fin 2) (_ : Fin 1) => if i = 0 then a else 1) := by
  refine Mat.ext rfl rfl fun i hi j hj => ?_
  obtain rfl : j = 0 := Nat.lt_one_iff.1 hj
  obtain rfl | rfl : i = 0 ∨ i = 1 := Nat.le_one_iff_eq_zero_or_eq_one.1 (Nat.lt_succ_iff.1 hi)
  · rw [Mat.get_ofReal _ Nat.two_pos Nat.one_pos]
    exact Mat.get_single a
  · rw [Mat.get_ofReal _ Nat.one_lt_two Nat.one_pos]
    exact Exact.one_literal

theorem transpose_mulVec_line (y : Fin 2 → ℝ) :
    (lineReals h f a bound upper).stackedᵀ *ᵥ y = fun _ : Fin 1 => a * y 0 + y 1 := by
  have hstacked : (lineReals h f a bound upper).stacked =
      Matrix.of fun (i : Fin 2) (_ : Fin 1) => if i = 0 then a else 1 :=
    Mat.ofReal_inj.1 ((lineReals h f a bound upper).rows_ofProgram.symm.trans (rows_line h f a bound upper))
  rw [hstacked]
  funext j
  change ∑ i : Fin 2, (if i = 0 then a else 1) * y i = _
  rw [Fin.sum_univ_two, if_pos rfl, if_neg one_ne_zero, one_mul]
theorem residuals_line (w : ℝ) (z y dy : Fin 2 → ℝ) :
    ∃ image force : ℝ, 0 ≤ image ∧ 0 ≤ force ∧
      (Point.ofReal (fun _ : Fin 1 => w) z y dy).residuals (System.ofProgram (line h f a bound upper)) =
        ⟨.real (max |a * w - z 0| |w - z 1|), .real |h * w + f + (a * y 0 + y 1)|, .real image, .real force⟩ := by
  let S : Matrix (Fin 2) (Fin 1) ℝ := Matrix.of fun i _ => if i = 0 then a else 1
  let H : Matrix (Fin 1) (Fin 1) ℝ := Matrix.of fun _ _ => h
  have hrows : (System.ofProgram (line h f a bound upper)).constraints.rows = Mat.ofReal S :=
    rows_line h f a bound upper
  have htransposed : (System.ofProgram (line h f a bound upper)).transposed = Mat.ofReal Sᵀ := by
    rw [← Mat.transpose_ofReal, ← hrows]
    rfl
  have hlinear : (System.ofProgram (line h f a bound upper)).program.linear = .ofReal fun _ : Fin 1 => f :=
    Vec.single_eq_ofReal fun _ => f
  have hmiss : ‖S *ᵥ (fun _ : Fin 1 => w) - z‖ = max |a * w - z 0| |w - z 1| := by
    rw [norm_fin_two]
    simp [S, mulVec, dotProduct]
  have hgradient : ‖H *ᵥ (fun _ : Fin 1 => w) + (fun _ : Fin 1 => f) + Sᵀ *ᵥ y‖ =
      |h * w + f + (a * y 0 + y 1)| := by
    rw [norm_fin_one]
    simp [S, H, mulVec, dotProduct, Fin.sum_univ_two]
  have hresiduals := Point.residuals_of_eq (H := H) rfl hlinear hrows htransposed (fun _ : Fin 1 => w) z y dy
  rw [hmiss, hgradient] at hresiduals
  exact ⟨_, _, le_max_of_le_left (norm_nonneg _), le_max_of_le_right (norm_nonneg _), hresiduals⟩

theorem mulVec_line (w : ℝ) : (line h f a bound upper).rows.mulVec (.single w) = .single (a * w) := by
  refine Vec.eq_single rfl ?_
  change (Mat.single a).mulVec (.single w) 0 = _
  rw [Mat.get_mulVec _ (by simp)]
  simp [Scalar.sum]

theorem isFeasible_line_iff (w : ℝ) : (line h f a bound upper).IsFeasible (.single w) ↔
    bound ≤ a * w ∧ 0 ≤ w ∧ .real w ≤ upper := by
  have himage := mulVec_line h f a bound upper w
  constructor
  · intro hw
    have hrow := (hw.rows 0 Nat.one_pos).1
    rw [himage] at hrow
    have hlower := (hw.bounds 0 Nat.one_pos).1
    exact ⟨Exact.real_le_real.1 hrow, Exact.real_le_real.1 hlower, (hw.bounds 0 Nat.one_pos).2⟩
  · rintro ⟨hrow, hlower, hupper⟩
    refine ⟨rfl, ?_, fun i hi => ?_, fun j hj => ?_⟩
    · rw [Vec.single_eq_ofReal fun _ => w]
      exact Vec.allFinite_ofReal _
    · obtain rfl : i = 0 := Nat.lt_one_iff.1 hi
      rw [himage]
      exact ⟨Exact.real_le_real.2 hrow, Exact.real_le_plusInfinity _⟩
    · obtain rfl : j = 0 := Nat.lt_one_iff.1 hj
      exact ⟨Exact.real_le_real.2 hlower, hupper⟩

theorem ordered_line (hupper : .real 0 ≤ upper) :
    (Constraints.ofProgram (line h f a bound upper)).Ordered 2 := by
  have hinfinity : -Scalar.infinity < upper := by
    refine OrderedScalar.lt_of_lt_of_le ?_ hupper
    exact ⟨Exact.minusInfinity_le_real 0, Exact.not_real_le_minusInfinity 0⟩
  refine ⟨rfl, rfl, fun i hi => ?_, fun i hi => ?_⟩
  · obtain rfl | rfl : i = 0 ∨ i = 1 := by omega
    · exact ⟨Exact.real_lt_plusInfinity bound, Exact.minusInfinity_le_plusInfinity,
        Exact.not_plusInfinity_le_minusInfinity⟩
    · exact ⟨Exact.real_lt_plusInfinity 0, hinfinity⟩
  · obtain rfl | rfl : i = 0 ∨ i = 1 := by omega
    · exact Exact.not_plusInfinity_lt _
    · exact fun hlt => OrderedScalar.not_le_of_lt hlt hupper

theorem wellBounded_line (hupper : .real 0 ≤ upper) : (line h f a bound upper).WellBounded := by
  have hordered := ordered_line h f a bound upper hupper
  refine ⟨fun i hi => ?_, fun j hj => ?_⟩
  · obtain rfl : i = 0 := Nat.lt_one_iff.1 hi
    exact hordered.bounded 0 Nat.two_pos
  · obtain rfl : j = 0 := Nat.lt_one_iff.1 hj
    exact hordered.bounded 1 Nat.one_lt_two

theorem gram_line : (System.ofProgram (line h f a bound upper)).gram = .single (a * a + 1) := by
  let c := Constraints.ofProgram (line h f a bound upper)
  have hfirst : c.rows 0 0 = .real a := Mat.get_single a
  have hsecond : c.rows 1 0 = .real 1 := Exact.one_literal
  refine Mat.eq_single rfl rfl ?_
  refine (Mat.get_ofFn _ Nat.one_pos Nat.one_pos).trans ?_
  change Scalar.sum 2 (fun k => c.rows.transpose 0 k * c.rows k 0) = _
  simp only [Scalar.sum, Mat.get_transpose, hfirst, hsecond, Exact.zero_literal, Exact.real_mul, Exact.real_add]
  congr 1
  ring

theorem matrix_line (settings : Settings Exact) {σ ρ : ℝ} (hσ : settings.sigma = .real σ) :
    (System.ofProgram (line h f a bound upper)).matrix settings (.real ρ) =
      .single (h + σ + ρ * (a * a + 1)) := by
  have hidentity : Mat.identity 1 = Mat.single 1 := Mat.eq_single rfl rfl Exact.one_literal
  unfold System.matrix
  rw [gram_line, hσ]
  change Mat.single h + Exact.real σ • Mat.identity 1 + _ = _
  rw [hidentity, Mat.smul_single, Mat.smul_single, Mat.add_single, Mat.add_single, mul_one]

theorem start?_line (settings : Settings Exact) {σ ρ : ℝ} (hσ : settings.sigma = .real σ)
    (hρ : settings.rho = .real ρ) (hm : 1 / 10 ≤ |h + σ + ρ * (a * a + 1)|) :
    ∃ l, Loop.start? Kernels.standard.symmetric? (System.ofProgram (line h f a bound upper)) settings =
        some l ∧
      l.point = Point.start (System.ofProgram (line h f a bound upper)) ∧ l.rho = .real ρ ∧
        l.solved (System.ofProgram (line h f a bound upper)) settings =
          .single (-f / (h + σ + ρ * (a * a + 1))) := by
  obtain ⟨solver, hsolver, hdivides⟩ := Ldlt.symmetric?_single (Ldlt.tiny_lt hm)
  refine ⟨⟨Point.start (System.ofProgram (line h f a bound upper)), settings.rho, solver, 0.0, 0.0⟩, ?_, rfl, hρ, ?_⟩
  · rw [Loop.start?, hρ, matrix_line h f a bound upper settings hσ]
    exact congrArg (Option.map _) hsolver
  · rw [Loop.solved, hρ, Point.rhs_start (lineReals h f a bound upper) hσ, ← hdivides]
    exact congrArg solver.solve (Vec.single_eq_ofReal _).symm

end Program

end BinarySplitting
