import Mathlib.Algebra.Order.Star.Real
import Mathlib.LinearAlgebra.Matrix.PosDef
import BinarySplitting.Proofs.Splitting.Certificate

/-!
# What convergence is worth

When the iteration converges, the gradient `Hw + f + A'y` is as small as the dual residual and the
image `Aw` as near to `z` as the primal one, and the multipliers `y` are normal to the bounds at `z`.
With convexity and the normality, `y'(Av - z) ≤ 0` at every feasible `v`, this makes the point nearly
optimal: its value is at most that of `v` plus the dual residual times the distance to `v` and the
primal one times the size of the multipliers, and it is past no bound by more than the primal
residual (`Program.IsNearOptimal`, `Solver.solve_isNearOptimal`).
-/

namespace BinarySplitting

open Matrix

namespace Program

variable {p : Program Exact}

/-- The quadratic form is symmetric and positive semidefinite. -/
def IsConvex (p : Program Exact) : Prop :=
  ∃ H : Matrix (Fin p.dimension) (Fin p.dimension) ℝ, p.quadratic = Mat.ofReal H ∧ H.PosSemidef

/-- A point has nearly the least value and nearly keeps the bounds: nearly in terms of two
tolerances, the distance to what it is compared with and the size of multipliers. -/
structure IsNearOptimal {α : Type} [Scalar α] (p : Program α) (w y : Vec α) (primal dual : α) : Prop where
  value : ∀ v, p.IsFeasible v → p.objective w ≤ p.objective v + dual * (v - w).absSum + primal * y.absSum
  violation : p.maxViolation w ≤ primal

namespace Reals

variable (R : p.Reals)

/-- The value of the program but for its constant. -/
noncomputable def value (w : Fin p.dimension → ℝ) : ℝ := 0.5 * (w ⬝ᵥ R.H *ᵥ w) + R.f ⬝ᵥ w

theorem posSemidef (h : p.IsConvex) : R.H.PosSemidef := by
  obtain ⟨H, hH, hpos⟩ := h
  rw [R.quadratic_eq, Mat.ofReal_inj] at hH
  rwa [hH]

theorem tangent_le (hH : R.H.PosSemidef) (w v : Fin p.dimension → ℝ) :
    R.value w + (R.H *ᵥ w + R.f) ⬝ᵥ (v - w) ≤ R.value v := by
  have hnonneg : 0 ≤ (v - w) ⬝ᵥ R.H *ᵥ (v - w) := by
    simpa using hH.dotProduct_mulVec_nonneg (v - w)
  have hsymm : w ⬝ᵥ R.H *ᵥ v = v ⬝ᵥ R.H *ᵥ w := by
    have hsymmetric : R.H.IsSymm := by simpa using hH.isHermitian
    rw [dotProduct_mulVec, dotProduct_comm, ← mulVec_transpose, hsymmetric.eq]
  rw [mulVec_sub, sub_dotProduct, dotProduct_sub, dotProduct_sub, hsymm] at hnonneg
  rw [add_dotProduct, dotProduct_sub, dotProduct_sub, dotProduct_comm (R.H *ᵥ w) v,
    dotProduct_comm (R.H *ᵥ w) w, value, value]
  linarith

end Reals

end Program

namespace Program.Reals

variable {p : Program Exact} (R : p.Reals)

/-- A point with a small gradient and normal multipliers near its image has nearly the least value. -/
theorem value_le (hH : R.H.PosSemidef) {w v : Fin p.dimension → ℝ}
    {z y : Fin (p.numRows + p.dimension) → ℝ} (hnormal : (Splitting.Constraints.ofProgram p).IsNormal z y)
    (hv : (Splitting.Constraints.ofProgram p).Admits (R.stacked *ᵥ v)) :
    R.value w ≤ R.value v + ‖R.H *ᵥ w + R.f + R.stackedᵀ *ᵥ y‖ * ∑ j, |(v - w) j| +
      ‖R.stacked *ᵥ w - z‖ * ∑ i, |y i| := by
  have htangent := R.tangent_le hH w v
  have hgradient : -((R.H *ᵥ w + R.f + R.stackedᵀ *ᵥ y) ⬝ᵥ (v - w)) ≤
      ‖R.H *ᵥ w + R.f + R.stackedᵀ *ᵥ y‖ * ∑ j, |(v - w) j| :=
    (neg_le_abs _).trans (abs_dotProduct_le _ _)
  have hprefers : y ⬝ᵥ R.stacked *ᵥ v ≤ y ⬝ᵥ z := hnormal.leansOn.dotProduct_le hv
  have himage : -((R.stacked *ᵥ w - z) ⬝ᵥ y) ≤ ‖R.stacked *ᵥ w - z‖ * ∑ i, |y i| :=
    (neg_le_abs _).trans (abs_dotProduct_le _ _)
  have hmove : (R.stackedᵀ *ᵥ y) ⬝ᵥ (v - w) = y ⬝ᵥ R.stacked *ᵥ v - y ⬝ᵥ R.stacked *ᵥ w := by
    rw [mulVec_transpose, ← dotProduct_mulVec, mulVec_sub, dotProduct_sub]
  rw [add_dotProduct, hmove] at hgradient
  rw [sub_dotProduct, dotProduct_comm (R.stacked *ᵥ w) y, dotProduct_comm z y] at himage
  linarith

end Program.Reals

namespace Splitting

variable {p : Program Exact}

theorem Point.IsNormal.isNearOptimal {pt : Point Exact} (h : pt.IsNormal p) (R : p.Reals)
    (hconvex : p.IsConvex) (hconstant : Scalar.isFinite p.constant = true) :
    p.IsNearOptimal pt.w pt.y (pt.residuals (System.ofProgram p)).primal
      (pt.residuals (System.ofProgram p)).dual := by
  obtain ⟨w, z, y, dy, rfl, hnormal⟩ := h
  obtain ⟨constant, hconstant⟩ := Exact.isFinite_iff.1 hconstant
  rw [residuals_ofReal R]
  refine ⟨fun v hv => ?_, ?_⟩
  · obtain ⟨v, rfl⟩ := hv.exists_ofReal rfl
    have hvalue := R.value_le (R.posSemidef hconvex) (w := w) hnormal ((R.isFeasible_iff v).1 hv)
    simp only [ofReal]
    rw [Program.objective_ofReal R.quadratic_eq R.linear_eq hconstant,
      Program.objective_ofReal R.quadratic_eq R.linear_eq hconstant, Vec.ofReal_sub, Vec.absSum_ofReal,
      Vec.absSum_ofReal, Exact.real_mul, Exact.real_mul, Exact.real_add, Exact.real_add, Exact.real_le_real]
    unfold Program.Reals.value at hvalue
    linarith
  · refine R.maxViolation_le (norm_nonneg _) fun i => ?_
    have hmiss := abs_le.1 (norm_le_pi_norm (R.stacked *ᵥ w - z) i)
    rw [Pi.sub_apply] at hmiss
    exact ⟨fun _ => Exact.sub_real_le (hnormal.admits i).1 (by linarith),
      fun _ => Exact.real_sub_le (hnormal.admits i).2 (by linarith)⟩

/-- A solution that was not refined is the last point of the iteration and nearly optimal, in terms of
residuals that are within the tolerances. -/
theorem Solver.solve_isNearOptimal {kernels : Kernels Exact} {clock : ℕ → Exact} {solver : Solver Exact}
    {p : Program Exact} {solution : Solution Exact} (hdimension : 0 < p.dimension) (hconvex : p.IsConvex)
    (hconstant : Scalar.isFinite p.constant = true) (hbounds : p.WellBounded)
    (halpha : Scalar.isFinite solver.settings.alpha = true)
    (hsound : solver.Throughout kernels clock p (Loop.IsSound p solver.settings))
    (hresult : (solver.solve kernels clock p).result = .ok solution)
    (hpolished : (solver.solve kernels clock p).info.polished = false) :
    ∃ o r, solver.iterate? kernels clock (System.ofProgram p) = some o ∧
      r = o.loop.point.residuals (System.ofProgram p) ∧ solution.w = o.loop.point.w ∧
      ((solver.solve kernels clock p).info.primal = r.primal ∧
        r.primal ≤ solver.settings.primalTolerance r) ∧
      ((solver.solve kernels clock p).info.dual = r.dual ∧ r.dual ≤ solver.settings.dualTolerance r) ∧
      p.IsNearOptimal solution.w o.loop.point.y r.primal r.dual := by
  obtain ⟨f, -, hsolve⟩ | ⟨-, hzero, -⟩ | ⟨-, -, i, -, hsolve⟩ |
    ⟨hcheck, -, hcrossed, ⟨-, hsolve⟩ | ⟨o, ho, hsolve⟩⟩ := solver.solve_cases kernels clock p
  · rw [hsolve] at hresult
    cases hresult
  · omega
  · rw [hsolve] at hresult
    cases hresult
  · rw [hsolve] at hresult
    cases hresult
  · rw [hsolve] at hresult hpolished ⊢
    obtain ⟨R⟩ := Program.exists_reals hcheck
    have hordered := Constraints.ordered_ofProgram R hbounds hcrossed
    obtain ⟨hending, hsolution, hprimal, hdual⟩ := Outcome.answer_unpolished hresult hpolished
    obtain ⟨start, hstart, hends⟩ := iterate?_ends ho
    cases hends with
    | exhausted h => cases hending
    | @stopped k l l' ending h hlt hchecked hcheck =>
      have hl := hsound start hstart k hlt l h
      have hnormal := hl.isNormal R hordered halpha (h.isReal R hstart hsound hordered halpha hlt.le)
      obtain ⟨hend, -⟩ | ⟨hend, -⟩ | ⟨-, hmeasured, hsmall⟩ | ⟨hend, -⟩ := Loop.check_error hcheck
      · cases hend.symm.trans hending
      · cases hend.symm.trans hending
      · obtain ⟨hpoint, hprimal', hdual'⟩ := Loop.of_measured hmeasured
        rw [Residuals.areSmall, Bool.and_eq_true, decide_eq_true_eq, decide_eq_true_eq] at hsmall
        rw [← hpoint] at hnormal hsmall
        have hoptimal := hnormal.isNearOptimal R hconvex hconstant
        subst hsolution
        exact ⟨_, l'.point.residuals (System.ofProgram p), ho, rfl, rfl, ⟨hprimal.trans hprimal', hsmall.1⟩,
          ⟨hdual.trans hdual', hsmall.2⟩, hoptimal⟩
      · cases hend.symm.trans hending

/-! ## A run of one iteration -/

/-- Settings whose relaxation is exact and whose tolerance is wide. -/
structure Settings.IsWide (s : Settings Exact) (σ ρ : ℝ) : Prop where
  sigma : s.sigma = .real σ
  rho : s.rho = .real ρ
  rho_pos : 0 < ρ
  alpha : s.alpha = .real 1
  absolute : s.absolute = .real 4
  relative : s.relative = .real 1e-9
  infeasibility : s.infeasibility = .real 1e-6
  timeLimit : s.timeLimit = .plusInfinity
  iterations : s.iterations = 1

/-- The first point of a run on the unit interval if the solution `x` of the first system is above one. -/
noncomputable def topPoint (ρ x : ℝ) : Point Exact :=
  .ofReal (fun _ : Fin 1 => x) ![x, 1] ![0, ρ * (x - 1)] ![0, ρ * (x - 1)]

section top

variable {h f σ ρ x : ℝ} {settings : Settings Exact} {z : Fin 2 → ℝ}

theorem ordered_unit (h f : ℝ) : (Constraints.ofProgram (.line h f 1 0 (.real 1))).Ordered 2 :=
  Program.ordered_line h f 1 0 _ (Exact.real_le_real.2 zero_le_one)

theorem nearest_top (hx : 1 < x) (hz : (Constraints.ofProgram (.line h f 1 0 (.real 1))).IsNearest (fun _ => x) z) :
    z = ![x, 1] := by
  have hrow : z 0 = x := by
    refine le_antisymm (not_lt.1 fun hraised => ?_) (not_lt.1 fun hlowered => ?_)
    · have hbound : Exact.real 0 = .real (z 0) := hz.raised 0 hraised
      rw [Exact.real_inj] at hbound
      linarith
    · have hbound : Exact.plusInfinity = .real (z 0) := hz.lowered 0 hlowered
      cases hbound
  have hvariable : z 1 = 1 := by
    have hle : z 1 ≤ 1 := Exact.real_le_real.1 (hz.admits 1).2
    have hbound : Exact.real 1 = .real (z 1) := hz.lowered 1 (by linarith)
    exact (Exact.real_inj.1 hbound).symm
  ext i
  fin_cases i
  · exact hrow
  · exact hvariable

theorem moved_top (hwide : settings.IsWide σ ρ) (hm : 1 / 10 ≤ |h + σ + ρ * (1 * 1 + 1)|)
    (hx : -f / (h + σ + ρ * (1 * 1 + 1)) = x) (habove : 1 < x) :
    ∃ l, Loop.start? Kernels.standard.symmetric? (System.ofProgram (.line h f 1 0 (.real 1))) settings = some l ∧
      Loop.IsSound (.line h f 1 0 (.real 1)) settings l ∧
      (l.moved (System.ofProgram (.line h f 1 0 (.real 1))) settings).point = topPoint ρ x := by
  obtain ⟨l, hstart, hpoint, hrho, hsolved⟩ := Program.start?_line h f 1 0 (.real 1) settings hwide.sigma hwide.rho hm
  have hfirst : l.solved (System.ofProgram (.line h f 1 0 (.real 1))) settings = .ofReal fun _ : Fin 1 => x := by
    rw [hsolved, hx]
    exact Vec.single_eq_ofReal fun _ => x
  have hsound : Loop.IsSound (.line h f 1 0 (.real 1)) settings l := by
    refine ⟨?_, ?_⟩
    · rw [hrho, Exact.zero_literal, Exact.real_lt_real]
      exact ⟨hwide.rho_pos, Exact.isFinite_iff.2 ⟨ρ, rfl⟩⟩
    · exact ⟨hfirst ▸ Vec.size_ofReal _, hfirst ▸ Vec.allFinite_ofReal _⟩
  obtain ⟨z, hz, hmoved⟩ := Loop.moved_start (Program.lineReals h f 1 0 (.real 1)) (ordered_unit h f) (a := 1)
    hwide.alpha hwide.rho_pos hpoint hrho hfirst
  have himage : (1 : ℝ) • (Program.lineReals h f 1 0 (.real 1)).stacked *ᵥ (fun _ : Fin 1 => x) = fun _ => x := by
    rw [one_smul]
    refine (Program.stacked_mulVec_line h f 1 0 (.real 1) fun _ => x).trans ?_
    ext i
    refine Fin.addCases (fun i => ?_) (fun i => ?_) i
    · rw [Fin.append_left, one_mul]
    · rw [Fin.append_right]
  rw [himage] at hz hmoved
  obtain rfl := nearest_top habove hz
  have hchange : ρ • ((fun _ : Fin 2 => x) - ![x, 1]) = ![0, ρ * (x - 1)] := by
    ext i
    fin_cases i
    · exact (congrArg (ρ * ·) (sub_self x)).trans (mul_zero ρ)
    · rfl
  have hvector : (1 : ℝ) • (fun _ : Fin 1 => x) = fun _ => x := one_smul ℝ _
  exact ⟨l, hstart, hsound, hmoved.trans
    (congrArg₂ (fun (w : Fin 1 → ℝ) (y : Fin 2 → ℝ) => Point.ofReal w ![x, 1] y y) hvector hchange)⟩

theorem areSmall_top (hwide : settings.IsWide σ ρ) (habove : 1 < x) (hx : x ≤ 5)
    (hforce : |h * x + f + ρ * (x - 1)| ≤ 4) :
    ((topPoint ρ x).residuals (System.ofProgram (.line h f 1 0 (.real 1)))).areSmall settings = true := by
  obtain ⟨image, force, himage, hforce', hresiduals⟩ := Program.residuals_line h f 1 0 (.real 1) x
    ![x, 1] ![0, ρ * (x - 1)] ![0, ρ * (x - 1)]
  have hprimal : max |1 * x - ![x, 1] 0| |x - ![x, (1 : ℝ)] 1| = x - 1 := by
    have hrow : |1 * x - ![x, 1] 0| = 0 := by simp
    have hvariable : |x - ![x, (1 : ℝ)] 1| = x - 1 := abs_of_pos (sub_pos.2 habove)
    rw [hrow, hvariable, max_eq_right (by linarith)]
  have hdual : |h * x + f + (1 * ![0, ρ * (x - 1)] 0 + ![0, ρ * (x - 1)] 1)| ≤ 4 := by
    simpa using hforce
  have hpoint : (topPoint ρ x).residuals (System.ofProgram (.line h f 1 0 (.real 1))) = _ := hresiduals
  rw [hpoint, hprimal, Residuals.areSmall, Bool.and_eq_true, decide_eq_true_eq, decide_eq_true_eq,
    Settings.primalTolerance, Settings.dualTolerance, hwide.absolute, hwide.relative]
  constructor
  · exact Exact.real_le_real.2 (by linarith)
  · exact Exact.real_le_real.2 (by linarith)

theorem check_top {factor : Mat Exact → Option (LinearSolver Exact)} (hwide : settings.IsWide σ ρ) (habove : 1 < x)
    (hx : x ≤ 5) (hforce : |h * x + f + ρ * (x - 1)| ≤ 4) {l : Loop Exact} (hpoint : l.point = topPoint ρ x) :
    l.check factor (System.ofProgram (.line h f 1 0 (.real 1))) settings 0.0 =
      .error (.converged, l.measured (System.ofProgram (.line h f 1 0 (.real 1)))) := by
  have hnotime : ¬ settings.timeLimit ≤ 0.0 := by
    rw [hwide.timeLimit, Exact.zero_literal]
    exact Exact.not_plusInfinity_le_real 0
  have hapart : ¬ (System.ofProgram (.line h f 1 0 (.real 1))).constraints.isInfeasibleAlong l.point.dy
      settings.infeasibility = true := by
    rw [hpoint, hwide.infeasibility]
    intro hcertificate
    have R := Program.lineReals h f 1 0 (.real 1)
    have hzero : (Program.line h f 1 0 (.real 1)).IsFeasible (.ofReal (0 : Fin 1 → ℝ)) :=
      (Program.isFeasible_line_iff h f 1 0 (.real 1) 0).2
        ⟨(mul_zero _).ge, le_rfl, Exact.real_le_real.2 zero_le_one⟩
    have hlarge := Constraints.one_lt_of_isInfeasibleAlong R.rows_ofProgram (by norm_num) hcertificate
      ((R.isFeasible_iff 0).1 hzero)
    simp only [Pi.zero_apply, abs_zero, Finset.sum_const_zero] at hlarge
    linarith
  have hsmall := areSmall_top (h := h) (f := f) hwide habove hx hforce
  rw [← hpoint] at hsmall
  unfold Loop.check
  rw [if_neg hnotime]
  refine (if_neg hapart).trans ?_
  exact if_pos hsmall

theorem solve_top (hwide : settings.IsWide σ ρ) (hm : 1 / 10 ≤ |h + σ + ρ * (1 * 1 + 1)|)
    (hx : -f / (h + σ + ρ * (1 * 1 + 1)) = x) (habove : 1 < x) (hle : x ≤ 5)
    (hforce : |h * x + f + ρ * (x - 1)| ≤ 4) (general : Mat Exact → LinearSolver Exact) :
    ∃ l, l.point = topPoint ρ x ∧
      (⟨settings⟩ : Solver Exact).solve { Kernels.standard with general } (fun _ => 0.0) (.line h f 1 0 (.real 1)) =
        Outcome.answer general (System.ofProgram (.line h f 1 0 (.real 1))) settings ⟨.converged, 0, l⟩ := by
  obtain ⟨l, hstart, -, hmoved⟩ := moved_top hwide hm hx habove
  obtain ⟨-, hsolve⟩ := Solver.solve_of_first_check { Kernels.standard with general } (fun _ => 0.0) ⟨settings⟩
    (Program.lineReals h f 1 0 (.real 1)) Nat.one_pos (ordered_unit h f) hstart
    (hwide.iterations.symm ▸ Nat.one_pos) (check_top hwide habove hle hforce hmoved)
  exact ⟨_, (Loop.of_measured rfl).1.trans hmoved, hsolve⟩

end top

/-- One iteration with unit steps and wide tolerances, refined by one exact solution or not at all. -/
noncomputable def Settings.oneStep (polish : Bool) : Settings Exact :=
  { Settings.standard with
    rho := 1.0, sigma := 1.0, alpha := 1.0, maxIterations := 1, checkInterval := 1, absolute := 4.0,
    polish, polishDelta := 0.0, polishSteps := 0 }

theorem isWide_oneStep (polish : Bool) : (Settings.oneStep polish).IsWide 1 1 where
  sigma := Exact.one_literal
  rho := Exact.one_literal
  rho_pos := one_pos
  alpha := Exact.one_literal
  absolute := (Exact.literal _ _ _).trans (congrArg Exact.real (by norm_num))
  relative := rfl
  infeasibility := rfl
  timeLimit := rfl
  iterations := rfl

/-- Minimises `½ w² - 4.5 w` over the unit interval. -/
noncomputable def ramp : Program Exact := .line 1 (-4.5) 1 0 (.real 1)

noncomputable def rampReals : ramp.Reals := Program.lineReals 1 (-4.5) 1 0 (.real 1)

theorem ordered_ramp : (Constraints.ofProgram ramp).Ordered 2 := ordered_unit 1 (-4.5)

theorem isConvex_ramp : ramp.IsConvex := by
  have hone : (Matrix.of fun _ _ : Fin 1 => (1 : ℝ)) = 1 := by
    ext i j
    rw [Subsingleton.elim i j, Matrix.one_apply_eq]
    rfl
  have hpos : (Matrix.of fun _ _ : Fin 1 => (1 : ℝ)).PosSemidef := hone ▸ PosSemidef.one
  exact ⟨Matrix.of fun _ _ : Fin 1 => 1, rfl, hpos⟩

theorem wellBounded_ramp : ramp.WellBounded :=
  Program.wellBounded_line 1 (-4.5) 1 0 _ (Exact.real_le_real.2 zero_le_one)

theorem moved_ramp (polish : Bool) :
    ∃ l, Loop.start? Kernels.standard.symmetric? (System.ofProgram ramp) (.oneStep polish) = some l ∧
      Loop.IsSound ramp (.oneStep polish) l ∧
      (l.moved (System.ofProgram ramp) (.oneStep polish)).point = topPoint 1 (9 / 8) :=
  moved_top (isWide_oneStep polish) (by norm_num) (by norm_num) (by norm_num)

theorem solve_ramp (general : Mat Exact → LinearSolver Exact) (polish : Bool) :
    ∃ l, l.point = topPoint 1 (9 / 8) ∧
      (⟨.oneStep polish⟩ : Solver Exact).solve { Kernels.standard with general } (fun _ => 0.0) ramp =
        Outcome.answer general (System.ofProgram ramp) (.oneStep polish) ⟨.converged, 0, l⟩ :=
  solve_top (isWide_oneStep polish) (by norm_num) (by norm_num) (by norm_num) (by norm_num)
    (abs_le.2 ⟨by norm_num, by norm_num⟩) general

theorem throughout_ramp (general : Mat Exact → LinearSolver Exact) (polish : Bool) :
    (⟨.oneStep polish⟩ : Solver Exact).Throughout { Kernels.standard with general } (fun _ => 0.0) ramp
      (Loop.IsSound ramp (.oneStep polish)) := by
  intro start hstart k hk l hl
  obtain rfl : k = 0 := Nat.lt_one_iff.1 hk
  obtain ⟨first, hfirst, hsound, -⟩ := moved_ramp polish
  cases hl
  rw [hstart] at hfirst
  rwa [Option.some.inj hfirst]

theorem Solver.solve_isNearOptimal_ramp :
    ∃ solution, (0 < ramp.dimension ∧ ramp.IsConvex ∧ Scalar.isFinite ramp.constant = true ∧
        ramp.WellBounded ∧ Scalar.isFinite (Settings.oneStep false).alpha = true ∧
        (⟨.oneStep false⟩ : Solver Exact).Throughout .standard (fun _ => 0.0) ramp
          (Loop.IsSound ramp (.oneStep false)) ∧
        ((⟨.oneStep false⟩ : Solver Exact).solve .standard (fun _ => 0.0) ramp).result = .ok solution ∧
        ((⟨.oneStep false⟩ : Solver Exact).solve .standard (fun _ => 0.0) ramp).info.polished = false) ∧
      ∃ o r, (⟨.oneStep false⟩ : Solver Exact).iterate? .standard (fun _ => 0.0) (System.ofProgram ramp) = some o ∧
        r = o.loop.point.residuals (System.ofProgram ramp) ∧ solution.w = o.loop.point.w ∧
        (((⟨.oneStep false⟩ : Solver Exact).solve .standard (fun _ => 0.0) ramp).info.primal = r.primal ∧
          r.primal ≤ (Settings.oneStep false).primalTolerance r) ∧
        (((⟨.oneStep false⟩ : Solver Exact).solve .standard (fun _ => 0.0) ramp).info.dual = r.dual ∧
          r.dual ≤ (Settings.oneStep false).dualTolerance r) ∧
        ramp.IsNearOptimal solution.w o.loop.point.y r.primal r.dual := by
  obtain ⟨l, -, hsolve⟩ := solve_ramp Kernels.standard.general false
  have hconstant : Scalar.isFinite ramp.constant = true := Exact.isFinite_iff.2 ⟨0, rfl⟩
  have halpha : Scalar.isFinite (Settings.oneStep false).alpha = true :=
    Exact.isFinite_iff.2 ⟨1, Exact.one_literal⟩
  have hsound := throughout_ramp Kernels.standard.general false
  have hpolished : ((⟨.oneStep false⟩ : Solver Exact).solve .standard (fun _ => 0.0) ramp).info.polished =
      false := congrArg (fun answer => answer.info.polished) hsolve
  have hresult : ((⟨.oneStep false⟩ : Solver Exact).solve .standard (fun _ => 0.0) ramp).result =
      .ok ⟨l.point.w, ramp.objective l.point.w⟩ := congrArg Answer.result hsolve
  exact ⟨_, ⟨Nat.one_pos, isConvex_ramp, hconstant, wellBounded_ramp, halpha, hsound, hresult, hpolished⟩,
    Solver.solve_isNearOptimal Nat.one_pos isConvex_ramp hconstant wellBounded_ramp halpha hsound hresult
      hpolished⟩

end Splitting

end BinarySplitting
