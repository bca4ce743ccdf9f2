import BinarySplitting.Proofs.Splitting.ActiveSet

/-!
# Fixed points of the iteration

An iteration solves a regularised system, relaxes the solution and its image by the same factor, moves the image
between the bounds and adds to the multipliers what it was moved by. If all three parts of a point stay, the
solution is the point itself and its image is `z`; then the regularisation and the penalty drop out of the system,
which says that the gradient vanishes, and `z` is the nearest value to `z + y / ρ`, which says that the multipliers
are normal to the bounds. Every step can be taken back: the system has one solution, because its matrix is positive
definite (`Program.Reals.system_injective`), and there is one nearest value (`Constraints.IsNearest.unique`).

So the fixed points are the points that satisfy the optimality conditions, whatever the step size, the weight and
the relaxation are (`Point.next_fixed_iff_isKkt`), and their vectors are the minimisers' (`Program.IsKkt.isMinimiser`).
-/

namespace BinarySplitting

open Matrix Splitting

/-- The optimality conditions: the image of the vector is `z`, the gradient vanishes with the multipliers, and the
multipliers are complementary to the bounds. -/
structure Program.IsKkt {α : Type} [Scalar α] (p : Program α) (w z y : Vec α) : Prop where
  image : (Constraints.ofProgram p).rows.mulVec w = z
  gradient : p.quadratic.mulVec w + p.linear + (Constraints.ofProgram p).rows.transpose.mulVec y =
    Vec.zero p.dimension
  complementary : (Constraints.ofProgram p).IsComplementary z y

/-! ## The system of an iteration -/

namespace Program.Reals

variable {p : Program Exact} (R : p.Reals)

/-- The matrix of the system for a weight and a step size. -/
def system (σ ρ : ℝ) : Matrix (Fin p.dimension) (Fin p.dimension) ℝ :=
  R.H + σ • 1 + ρ • (R.stackedᵀ * R.stacked)

theorem matrix_ofProgram {settings : Settings Exact} {σ : ℝ} (hσ : settings.sigma = .real σ) (ρ : ℝ) :
    (System.ofProgram p).matrix settings (.real ρ) = Mat.ofReal (R.system σ ρ) := by
  have hquadratic : (System.ofProgram p).program.quadratic = Mat.ofReal R.H := R.quadratic_eq
  have hgram : (System.ofProgram p).gram = Mat.ofReal (R.stackedᵀ * R.stacked) := by
    rw [← Mat.ofReal_mul, ← R.transposed_ofProgram, ← R.rows_ofProgram]
    rfl
  have hdimension : (System.ofProgram p).program.dimension = p.dimension := rfl
  rw [System.matrix, hquadratic, hgram, hσ, hdimension, Mat.identity_eq_ofReal, Mat.ofReal_smul, Mat.ofReal_smul,
    Mat.ofReal_add, Mat.ofReal_add, system]

theorem system_mulVec (σ ρ : ℝ) (x : Fin p.dimension → ℝ) :
    R.system σ ρ *ᵥ x = R.H *ᵥ x + σ • x + ρ • R.stackedᵀ *ᵥ (R.stacked *ᵥ x) := by
  rw [system, add_mulVec, add_mulVec, smul_mulVec, one_mulVec, smul_mulVec, mulVec_mulVec]

theorem system_injective (hH : R.H.PosSemidef) {σ ρ : ℝ} (hσ : 0 < σ) (hρ : 0 ≤ ρ)
    {x v : Fin p.dimension → ℝ} (h : R.system σ ρ *ᵥ x = R.system σ ρ *ᵥ v) : x = v := by
  have hzero : (x - v) ⬝ᵥ R.system σ ρ *ᵥ (x - v) = 0 := by
    rw [mulVec_sub, h, sub_self, dotProduct_zero]
  have hcurvature : 0 ≤ (x - v) ⬝ᵥ R.H *ᵥ (x - v) := by
    simpa using hH.dotProduct_mulVec_nonneg (x - v)
  have himage : 0 ≤ (x - v) ⬝ᵥ R.stackedᵀ *ᵥ (R.stacked *ᵥ (x - v)) := by
    rw [mulVec_mulVec, dotProduct_gram]
    exact Finset.sum_nonneg fun i _ => mul_self_nonneg _
  rw [system_mulVec, dotProduct_add, dotProduct_add, dotProduct_smul, dotProduct_smul, smul_eq_mul,
    smul_eq_mul] at hzero
  have hsquare : 0 ≤ (x - v) ⬝ᵥ (x - v) := Finset.sum_nonneg fun i _ => mul_self_nonneg _
  have hdistance : (x - v) ⬝ᵥ (x - v) = 0 := by
    nlinarith [mul_nonneg hρ himage]
  exact sub_eq_zero.1 (dotProduct_self_eq_zero.1 hdistance)

theorem system_eq_iff {σ ρ : ℝ} {w : Fin p.dimension → ℝ} {z y : Fin (p.numRows + p.dimension) → ℝ}
    (himage : R.stacked *ᵥ w = z) :
    R.system σ ρ *ᵥ w = σ • w - R.f + R.stackedᵀ *ᵥ (ρ • z - y) ↔ R.H *ᵥ w + R.f + R.stackedᵀ *ᵥ y = 0 := by
  have hdifference : R.system σ ρ *ᵥ w - (σ • w - R.f + R.stackedᵀ *ᵥ (ρ • z - y)) =
      R.H *ᵥ w + R.f + R.stackedᵀ *ᵥ y := by
    rw [system_mulVec, himage, mulVec_sub, mulVec_smul]
    abel
  rw [← hdifference, sub_eq_zero]

theorem isKkt_ofReal (w : Fin p.dimension → ℝ) (z y : Fin (p.numRows + p.dimension) → ℝ) :
    p.IsKkt (.ofReal w) (.ofReal z) (.ofReal y) ↔
      R.stacked *ᵥ w = z ∧ R.H *ᵥ w + R.f + R.stackedᵀ *ᵥ y = 0 ∧ (Constraints.ofProgram p).IsNormal z y := by
  have himage : (Constraints.ofProgram p).rows.mulVec (.ofReal w) = .ofReal (R.stacked *ᵥ w) := by
    rw [R.rows_ofProgram, Mat.mulVec_ofReal]
  have hgradient : p.quadratic.mulVec (.ofReal w) + p.linear +
      (Constraints.ofProgram p).rows.transpose.mulVec (.ofReal y) =
        .ofReal (R.H *ᵥ w + R.f + R.stackedᵀ *ᵥ y) := by
    rw [R.quadratic_eq, R.linear_eq, R.rows_ofProgram, Mat.transpose_ofReal, Mat.mulVec_ofReal, Mat.mulVec_ofReal,
      Vec.ofReal_add, Vec.ofReal_add]
  have hsides : (Constraints.ofProgram p).IsComplementary (.ofReal z) (.ofReal y) ↔
      (Constraints.ofProgram p).IsNormal z y := Constraints.isComplementary_ofReal rfl
  rw [← hsides]
  constructor
  · intro h
    have hzero := hgradient.symm.trans h.gradient
    rw [Vec.zero_eq_ofReal, Vec.ofReal_inj] at hzero
    exact ⟨Vec.ofReal_inj.1 (himage.symm.trans h.image), hzero, h.complementary⟩
  · rintro ⟨hz, hzero, hcomplementary⟩
    refine ⟨himage.trans (congrArg _ hz), ?_, hcomplementary⟩
    rw [hgradient, hzero, Vec.zero_eq_ofReal]

end Program.Reals

theorem Program.IsKkt.isMinimiser {p : Program Exact} {w z y : Vec Exact} (h : p.IsKkt w z y)
    (hcheck : check p = .ok ()) (hconvex : p.IsConvex) (hconstant : Scalar.isFinite p.constant = true)
    (hw : w.size = p.dimension ∧ w.allFinite = true)
    (hy : y.size = p.numRows + p.dimension ∧ y.allFinite = true) : p.IsMinimiser w := by
  obtain ⟨R⟩ := Program.exists_reals hcheck
  obtain ⟨constant, hconstant⟩ := Exact.isFinite_iff.1 hconstant
  obtain ⟨w, rfl⟩ := Vec.eq_ofReal hw.1 hw.2
  obtain ⟨y, rfl⟩ := Vec.eq_ofReal hy.1 hy.2
  obtain rfl : z = .ofReal (R.stacked *ᵥ w) := by
    rw [← h.image, R.rows_ofProgram, Mat.mulVec_ofReal]
  obtain ⟨-, hgradient, hnormal⟩ := (R.isKkt_ofReal w _ y).1 h
  refine ⟨(R.isFeasible_iff w).2 hnormal.admits, fun v hv => ?_⟩
  obtain ⟨v, rfl⟩ := hv.exists_ofReal rfl
  have hvalue := R.value_le (R.posSemidef hconvex) (w := w) hnormal ((R.isFeasible_iff v).1 hv)
  rw [hgradient, sub_self, norm_zero, norm_zero, zero_mul, zero_mul, add_zero, add_zero] at hvalue
  unfold Program.Reals.value at hvalue
  rw [Program.objective_ofReal R.quadratic_eq R.linear_eq hconstant,
    Program.objective_ofReal R.quadratic_eq R.linear_eq hconstant, Exact.real_le_real]
  linarith

/-! ## One iteration -/

theorem relaxed_eq_iff {k : ℕ} {a : ℝ} (ha : a ≠ 0) {x w : Fin k → ℝ} : a • x + (1 - a) • w = w ↔ x = w := by
  have hdifference : a • x + (1 - a) • w - w = a • (x - w) := by
    rw [sub_smul, one_smul, smul_sub]
    abel
  rw [← sub_eq_zero, hdifference, smul_eq_zero_iff_right ha, sub_eq_zero]

theorem Program.Reals.relaxed_iff {p : Program Exact} (R : p.Reals) {a : ℝ} (ha : a ≠ 0)
    {x : Fin p.dimension → ℝ} {z : Fin (p.numRows + p.dimension) → ℝ} : R.relaxed a x z = z ↔ R.stacked *ᵥ x = z :=
  relaxed_eq_iff ha

/-- An iteration over the reals keeps a point exactly if it satisfies the optimality conditions. -/
theorem Program.Reals.fixed_iff {p : Program Exact} (R : p.Reals) (hH : R.H.PosSemidef) {σ ρ a : ℝ} (hσ : 0 < σ)
    (hρ : 0 < ρ) (ha : a ≠ 0) {w x : Fin p.dimension → ℝ} {z y z' : Fin (p.numRows + p.dimension) → ℝ}
    (hx : R.system σ ρ *ᵥ x = σ • w - R.f + R.stackedᵀ *ᵥ (ρ • z - y))
    (hz' : (Constraints.ofProgram p).IsNearest (R.relaxed a x z + ρ⁻¹ • y) z') :
    (a • x + (1 - a) • w = w ∧ z' = z ∧ ρ • (R.relaxed a x z + ρ⁻¹ • y - z') = y) ↔
      R.stacked *ᵥ w = z ∧ R.H *ᵥ w + R.f + R.stackedᵀ *ᵥ y = 0 ∧ (Constraints.ofProgram p).IsNormal z y := by
  have hrest : ∀ v : Fin (p.numRows + p.dimension) → ℝ, ρ • (v + ρ⁻¹ • y - z) = ρ • (v - z) + y := fun v => by
    rw [add_sub_right_comm, smul_add, smul_inv_smul₀ hρ.ne']
  constructor
  · rintro ⟨hstep, rfl, hy⟩
    obtain rfl := (relaxed_eq_iff ha).1 hstep
    have hrelaxed : R.relaxed a x z' = z' := by
      rw [hrest, add_eq_right, smul_eq_zero_iff_right hρ.ne', sub_eq_zero] at hy
      exact hy
    have himage := (R.relaxed_iff ha).1 hrelaxed
    have hnormal := hz'.isNormal hρ
    rw [hy] at hnormal
    exact ⟨himage, (R.system_eq_iff himage).1 hx, hnormal⟩
  · rintro ⟨himage, hgradient, hnormal⟩
    have hsolves := (R.system_eq_iff (σ := σ) (ρ := ρ) himage).2 hgradient
    obtain rfl := R.system_injective hH hσ hρ.le (hx.trans hsolves.symm)
    have hrelaxed := (R.relaxed_iff ha).2 himage
    rw [hrelaxed] at hz' ⊢
    obtain rfl := hz'.unique (hnormal.isNearest hρ)
    refine ⟨(relaxed_eq_iff ha).2 rfl, rfl, ?_⟩
    rw [hrest, sub_self, smul_zero, zero_add]

namespace Splitting

variable {p : Program Exact} {settings : Settings Exact} {solver : LinearSolver Exact}

/-- **The fixed points of the iteration are the points that satisfy the optimality conditions**, for every positive
weight and step size and every relaxation, if the system is solved exactly. -/
theorem Point.next_fixed_iff_isKkt (hcheck : check p = .ok ()) (hconvex : p.IsConvex) (hbounds : p.WellBounded)
    (hcrossed : (Constraints.ofProgram p).crossed? = none) {rho : Exact}
    (hsigma : 0.0 < settings.sigma ∧ Scalar.isFinite settings.sigma = true)
    (hrho : 0.0 < rho ∧ Scalar.isFinite rho = true) (halpha : 0.0 < settings.alpha ∧ settings.alpha < 2.0)
    (hexact : solver.IsExact ((System.ofProgram p).matrix settings rho)) {pt : Point Exact}
    (hw : pt.w.size = p.dimension ∧ pt.w.allFinite = true)
    (hz : pt.z.size = p.numRows + p.dimension ∧ pt.z.allFinite = true)
    (hy : pt.y.size = p.numRows + p.dimension ∧ pt.y.allFinite = true) :
    ((pt.next (System.ofProgram p) settings solver rho).w = pt.w ∧
        (pt.next (System.ofProgram p) settings solver rho).z = pt.z ∧
        (pt.next (System.ofProgram p) settings solver rho).y = pt.y) ↔ p.IsKkt pt.w pt.z pt.y := by
  obtain ⟨R⟩ := Program.exists_reals hcheck
  have hordered := Constraints.ordered_ofProgram R hbounds hcrossed
  obtain ⟨σ, hσ⟩ := Exact.isFinite_iff.1 hsigma.2
  obtain ⟨ρ, rfl⟩ := Exact.isFinite_iff.1 hrho.2
  obtain ⟨a, ha, hapos⟩ : ∃ a : ℝ, settings.alpha = .real a ∧ 0 < a := by
    obtain ⟨hpositive, hbelow⟩ := halpha
    rw [Exact.zero_literal] at hpositive
    rw [Exact.two_literal] at hbelow
    obtain ⟨a, ha, -, -⟩ := Exact.exists_real_of_between (OrderedScalar.le_of_lt hpositive)
      (OrderedScalar.le_of_lt hbelow)
    rw [ha, Exact.real_lt_real] at hpositive
    exact ⟨a, ha, hpositive⟩
  have hσpos := hsigma.1
  have hρpos := hrho.1
  rw [hσ, Exact.zero_literal, Exact.real_lt_real] at hσpos
  rw [Exact.zero_literal, Exact.real_lt_real] at hρpos
  obtain ⟨vw, vz, vy, dy⟩ := pt
  obtain ⟨w, rfl⟩ := Vec.eq_ofReal hw.1 hw.2
  obtain ⟨z, rfl⟩ := Vec.eq_ofReal hz.1 hz.2
  obtain ⟨y, rfl⟩ := Vec.eq_ofReal hy.1 hy.2
  rw [R.matrix_ofProgram hσ, LinearSolver.isExact_ofReal_iff] at hexact
  obtain ⟨x, hanswer, hx⟩ := hexact (σ • w - R.f + R.stackedᵀ *ᵥ (ρ • z - y))
  rw [← Point.rhs_ofReal R hσ ρ w z y 0] at hanswer
  obtain ⟨z', hnearest, hnext⟩ := Point.next_ofReal R hordered ha hρpos hanswer
  -- The change of the multipliers that the point carries along takes no part.
  have hsame : (⟨.ofReal w, .ofReal z, .ofReal y, dy⟩ : Point Exact).next (System.ofProgram p) settings solver
      (.real ρ) = (Point.ofReal w z y 0).next (System.ofProgram p) settings solver (.real ρ) := rfl
  rw [hsame, hnext, R.isKkt_ofReal, ← R.fixed_iff (R.posSemidef hconvex) hσpos hρpos hapos.ne' hx hnearest]
  unfold Point.ofReal
  dsimp only
  rw [Vec.ofReal_inj, Vec.ofReal_inj, Vec.ofReal_inj]

/-- The minimiser of the ramp, which is at the upper bound, with its image and multipliers. -/
noncomputable def rampOptimum : Point Exact := .ofReal (fun _ : Fin 1 => 1) (fun _ : Fin 2 => 1) ![0, 3.5] 0

theorem isKkt_ramp : ramp.IsKkt rampOptimum.w rampOptimum.z rampOptimum.y := by
  obtain ⟨image, force, -, -, hresiduals⟩ := Program.residuals_line 1 (-4.5) 1 0 (.real 1) 1
    (fun _ : Fin 2 => 1) ![0, 3.5] 0
  have hreals := Point.residuals_ofReal rampReals (fun _ : Fin ramp.dimension => 1)
    (fun _ : Fin (ramp.numRows + ramp.dimension) => 1) ![0, 3.5] 0
  have hboth := hreals.symm.trans hresiduals
  rw [Residuals.mk.injEq, Exact.real_inj, Exact.real_inj] at hboth
  obtain ⟨hprimal, hdual, -⟩ := hboth
  refine (rampReals.isKkt_ofReal _ _ _).2 ⟨?_, ?_, ?_, ?_, ?_⟩
  · refine sub_eq_zero.1 (norm_eq_zero.1 (hprimal.trans ?_))
    norm_num
  · refine norm_eq_zero.1 (hdual.trans ?_)
    norm_num
  · exact Fin.forall_fin_two.2 ⟨⟨Exact.real_le_real.2 zero_le_one, Exact.real_le_plusInfinity 1⟩,
      ⟨Exact.real_le_real.2 zero_le_one, Exact.real_le_real.2 le_rfl⟩⟩
  · exact Fin.forall_fin_two.2 ⟨fun hpos => absurd hpos (lt_irrefl 0), fun _ => rfl⟩
  · exact Fin.forall_fin_two.2 ⟨fun hneg => absurd hneg (lt_irrefl 0), fun hneg => absurd hneg (by norm_num)⟩

theorem exists_isExact_ramp : ∃ solver : LinearSolver Exact,
    solver.IsExact ((System.ofProgram ramp).matrix (.oneStep false) (.real 1)) := by
  obtain ⟨solver, -, hdivides⟩ := Ldlt.symmetric?_single (a := 1 + 1 + 1 * (1 * 1 + 1)) (Ldlt.tiny_lt (by norm_num))
  refine ⟨solver, ?_⟩
  rw [ramp, Program.matrix_line 1 (-4.5) 1 0 (.real 1) (.oneStep false) Exact.one_literal]
  exact LinearSolver.isExact_single (by norm_num) hdivides

/-- The minimiser of the ramp, which is at the upper bound, is kept with its image and multipliers. -/
theorem Point.next_fixed_iff_isKkt_ramp :
    check ramp = .ok () ∧ ramp.IsConvex ∧ ramp.WellBounded ∧ (Constraints.ofProgram ramp).crossed? = none ∧
      (0.0 < (Settings.oneStep false).sigma ∧ Scalar.isFinite (Settings.oneStep false).sigma = true) ∧
      (0.0 < (Settings.oneStep false).alpha ∧ (Settings.oneStep false).alpha < 2.0) ∧
      ramp.IsKkt rampOptimum.w rampOptimum.z rampOptimum.y ∧
      ∃ solver : LinearSolver Exact,
        solver.IsExact ((System.ofProgram ramp).matrix (.oneStep false) (.real 1)) ∧
        (rampOptimum.next (System.ofProgram ramp) (.oneStep false) solver (.real 1)).w = rampOptimum.w ∧
        (rampOptimum.next (System.ofProgram ramp) (.oneStep false) solver (.real 1)).z = rampOptimum.z ∧
        (rampOptimum.next (System.ofProgram ramp) (.oneStep false) solver (.real 1)).y = rampOptimum.y := by
  have hcrossed : (Constraints.ofProgram ramp).crossed? = none := ordered_ramp.crossed?_eq_none rfl
  have hone : (0.0 : Exact) < 1.0 ∧ Scalar.isFinite (1.0 : Exact) = true := by
    rw [Exact.zero_literal, Exact.one_literal, Exact.real_lt_real]
    exact ⟨one_pos, Exact.isFinite_iff.2 ⟨1, rfl⟩⟩
  have htwo : (1.0 : Exact) < 2.0 := by
    rw [Exact.one_literal, Exact.two_literal, Exact.real_lt_real]
    exact one_lt_two
  have hrho : (0.0 : Exact) < .real 1 ∧ Scalar.isFinite (.real 1 : Exact) = true := by
    rw [← Exact.one_literal]
    exact hone
  obtain ⟨solver, hexact⟩ := exists_isExact_ramp
  have hfixed := (Point.next_fixed_iff_isKkt rampReals.check isConvex_ramp wellBounded_ramp hcrossed hone hrho
    ⟨hone.1, htwo⟩ hexact ⟨Vec.size_ofReal _, Vec.allFinite_ofReal _⟩ ⟨Vec.size_ofReal _, Vec.allFinite_ofReal _⟩
    ⟨Vec.size_ofReal _, Vec.allFinite_ofReal _⟩).2 isKkt_ramp
  exact ⟨rampReals.check, isConvex_ramp, wellBounded_ramp, hcrossed, hone, ⟨hone.1, htwo⟩, isKkt_ramp, solver, hexact,
    hfixed⟩

end Splitting

end BinarySplitting
