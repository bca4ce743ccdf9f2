import BinarySplitting.Proofs.Splitting.Polish

/-!
# How far a solution is past its bounds

Every solution of a program with variables has passed one of two tests. The refinement measures the
violation itself. The iteration only compares the image of its point with the part of it that was moved
between the bounds, but this is enough (`Point.maxViolation_le`): a dual residual that compares to a
tolerance shows that no multiplier is undefined, so no entry of the moved image is, so the image is between
all bounds that are defined; and a point past a bound by some amount is that far from it.

Nothing is asked of the routines, of the settings or of the bounds for this: what they answer may be wrong,
infinite or undefined. A program without variables passes no test. It is answered with the empty vector,
also where its rows ask for something else (`Solver.solve_rowAlone`).
-/

namespace BinarySplitting

open Matrix Splitting

namespace Splitting

section generic

variable {α : Type} [Scalar α]

/-- The tolerance to which the violation of a refined point is compared. -/
def Settings.refinedTolerance (settings : Settings α) (p : Program α) (w : Vec α) : α :=
  settings.polishTolerance * (1.0 + w.maxNorm + p.linear.maxNorm)

theorem ActiveSet.polish?_maxViolation {general : Mat α → LinearSolver α} {a : ActiveSet} {s : System α}
    {settings : Settings α} {refined : Polished α} (h : a.polish? general s settings = some refined) :
    s.program.maxViolation refined.w ≤ settings.refinedTolerance s.program refined.w := by
  unfold polish? at h
  dsimp only at h
  split at h
  · next htests =>
    obtain rfl := Option.some.inj h
    rw [Bool.and_eq_true, Bool.and_eq_true] at htests
    exact of_decide_eq_true htests.1.2
  · cases h

theorem Point.residuals_primal (s : System α) (pt : Point α) :
    (pt.residuals s).primal = (s.constraints.rows.mulVec pt.w - pt.z).maxNorm := by
  simp only [residuals]

theorem Point.residuals_dual (s : System α) (pt : Point α) : (pt.residuals s).dual =
    (s.program.quadratic.mulVec pt.w + s.program.linear + s.transposed.mulVec pt.y).maxNorm := by
  simp only [residuals]

end generic

/-! ## The moved image -/

variable {p : Program Exact} {settings : Settings Exact}

/-- Multipliers that are defined come from an image that is defined, which was moved between the bounds. -/
theorem Point.next_within {s : System Exact} {solver : LinearSolver Exact} {rho : Exact} {before : Point Exact}
    {k : ℕ} (hlower : s.constraints.lower.size = k) (hupper : s.constraints.upper.size = k)
    (hsize : (before.next s settings solver rho).y.size = k)
    (hdefined : ∀ i < k, (before.next s settings solver rho).y i ≠ .undefined) :
    (before.next s settings solver rho).z.size = k ∧
      ∀ i < k, (before.next s settings solver rho).z i ≠ .undefined ∧
        ∃ v, (before.next s settings solver rho).z i =
          Scalar.smaller (Scalar.larger v (s.constraints.lower i)) (s.constraints.upper i) := by
  have hsum : (before.next s settings solver rho).y = before.y + (before.next s settings solver rho).dy := rfl
  obtain ⟨relaxed, hchange⟩ : ∃ relaxed : Vec Exact,
      (before.next s settings solver rho).dy = rho • (relaxed - (before.next s settings solver rho).z) :=
    ⟨_, rfl⟩
  obtain ⟨v, hmoved⟩ : ∃ v : Vec Exact, (before.next s settings solver rho).z =
      v.within s.constraints.lower s.constraints.upper := ⟨_, rfl⟩
  generalize before.next s settings solver rho = next at hsize hdefined hsum hchange hmoved ⊢
  have hentry : ∀ i < k, next.z i ≠ .undefined := by
    intro i hi
    have hy := hdefined i hi
    rw [hsum, Vec.size_add] at hsize
    have hsplit : next.y i = before.y i + next.dy i := by
      rw [hsum]
      exact Vec.get_zip _ (by omega)
    rw [hsplit] at hy
    have hdy := (Exact.defined_of_add hy).2
    have hlt := Vec.lt_size_of_defined hdy
    rw [hchange, Vec.size_smul] at hlt
    have hscaled : next.dy i = rho * (relaxed - next.z) i := by
      rw [hchange]
      exact Vec.get_map _ hlt
    rw [hscaled] at hdy
    have hdifference := (Exact.defined_of_mul hdy).2
    rw [Vec.get_sub hlt] at hdifference
    exact (Exact.defined_of_sub (Exact.defined_iff.2 hdifference)).2
  refine ⟨?_, fun i hi => ⟨hentry i hi, v i, ?_⟩⟩
  · have hle : next.z.size ≤ k := by
      rw [hsum, hchange, Vec.size_add, Vec.size_smul, Vec.size_sub] at hsize
      omega
    have hge : k ≤ next.z.size := by
      rw [hmoved, Vec.within, Vec.size_zip, hupper]
      exact le_max_right _ _
    exact le_antisymm hle hge
  · rw [hmoved]
    exact Vec.get_within (hlower ▸ hi) (hupper ▸ hi)

theorem Point.defined_of_dual (R : p.Reals) (hn : 0 < p.dimension) {pt : Point Exact} {c : Exact}
    (h : (pt.residuals (System.ofProgram p)).dual ≤ c) :
    pt.y.size = p.numRows + p.dimension ∧ ∀ i < p.numRows + p.dimension, pt.y i ≠ .undefined := by
  have hforce : ((System.ofProgram p).transposed.mulVec pt.y).size = p.dimension := by
    rw [R.transposed_ofProgram]
    exact Vec.size_ofFn _ _
  have hpos : 0 < ((System.ofProgram p).program.quadratic.mulVec pt.w + (System.ofProgram p).program.linear +
      (System.ofProgram p).transposed.mulVec pt.y).size := by
    rw [Vec.size_add, hforce]
    omega
  rw [residuals_dual] at h
  have hfirst := Vec.first_defined_of_maxNorm_le hpos h
  rw [Vec.size_add] at hpos
  have hsplit := Exact.defined_of_add (Vec.get_zip (· + ·) hpos ▸ hfirst)
  have htransposed := hsplit.2
  rw [R.transposed_ofProgram] at htransposed
  exact Mat.defined_of_mulVec hn htransposed

theorem Point.exists_real_of_primal (R : p.Reals) (hk : 0 < p.numRows + p.dimension) {pt : Point Exact}
    (hsize : pt.z.size = p.numRows + p.dimension)
    (hdefined : ∀ i < p.numRows + p.dimension, pt.z i ≠ .undefined) {e : ℝ}
    (h : (pt.residuals (System.ofProgram p)).primal = .real e) :
    ∃ (w : Fin p.dimension → ℝ) (z : Fin (p.numRows + p.dimension) → ℝ),
      pt.w = .ofReal w ∧ pt.z = .ofReal z ∧ ‖R.stacked *ᵥ w - z‖ = e := by
  have hrows : (System.ofProgram p).constraints.rows = Mat.ofReal R.stacked := R.rows_ofProgram
  rw [residuals_primal, hrows] at h
  have himage : ((Mat.ofReal R.stacked).mulVec pt.w).size = p.numRows + p.dimension := Vec.size_ofFn _ _
  have hdifference : ((Mat.ofReal R.stacked).mulVec pt.w - pt.z).size = p.numRows + p.dimension := by
    rw [Vec.size_sub, himage, hsize, max_self]
  have hbound : ((Mat.ofReal R.stacked).mulVec pt.w - pt.z).maxNorm ≤ .real e := by
    rw [h]
    exact Exact.real_le_real.2 le_rfl
  -- The first entry is real, and so the vector of which it is a sum.
  obtain ⟨w, hw⟩ : ∃ w : Fin p.dimension → ℝ, pt.w = .ofReal w := by
    have hpos : 0 < ((Mat.ofReal R.stacked).mulVec pt.w - pt.z).size := by
      rw [hdifference]
      exact hk
    have hfirst := Vec.first_defined_of_maxNorm_le hpos hbound
    obtain ⟨a, ha⟩ := Exact.exists_real_of_abs_le (Vec.abs_le_of_maxNorm_le hbound hpos hfirst)
    rw [Vec.get_sub hpos] at ha
    obtain ⟨b, -, hb, -⟩ := Exact.exists_real_of_add ha
    exact Mat.exists_ofReal_of_mulVec hk hb
  rw [hw, Mat.mulVec_ofReal] at h hdifference
  have hentry : ∀ i (hi : i < p.numRows + p.dimension), (Vec.ofReal (R.stacked *ᵥ w) - pt.z) i =
      .real ((R.stacked *ᵥ w) ⟨i, hi⟩) - pt.z i := by
    intro i hi
    rw [Vec.get_sub (hi.trans_eq hdifference.symm), Vec.get_ofReal _ hi]
  obtain ⟨f, hf⟩ := Vec.eq_ofReal_of_maxNorm hdifference (fun i hi => by
    rw [hdifference] at hi
    rw [hentry i hi]
    exact Exact.real_sub_defined_iff.2 (hdefined i hi)) h
  obtain ⟨z, hz⟩ : ∃ z : Fin (p.numRows + p.dimension) → ℝ, pt.z = .ofReal z := by
    refine Vec.eq_ofReal hsize (Vec.allFinite_iff.2 fun i hi => Exact.isFinite_iff.2 ?_)
    rw [hsize] at hi
    have hreal := hentry i hi
    rw [hf, Vec.get_ofReal f hi] at hreal
    exact Exact.exists_real_of_real_sub hreal.symm
  refine ⟨w, z, hw, hz, ?_⟩
  rw [hz, Vec.ofReal_sub, Vec.maxNorm_ofReal, Exact.real_inj] at h
  exact h

/-- A point whose residuals compare to tolerances is past no bound by more than the primal one. -/
theorem Point.maxViolation_le (R : p.Reals) (hn : 0 < p.dimension)
    (hcrossed : (Constraints.ofProgram p).crossed? = none) {pt before : Point Exact}
    {solver : LinearSolver Exact} {rho c d : Exact}
    (hpt : pt = before.next (System.ofProgram p) settings solver rho)
    (hprimal : (pt.residuals (System.ofProgram p)).primal ≤ c)
    (hdual : (pt.residuals (System.ofProgram p)).dual ≤ d) :
    p.maxViolation pt.w ≤ (pt.residuals (System.ofProgram p)).primal := by
  obtain ⟨hlower, hupper⟩ := R.bounds_size
  obtain ⟨hsize, hmultipliers⟩ := Point.defined_of_dual R hn hdual
  obtain ⟨hz, hmoved⟩ : pt.z.size = p.numRows + p.dimension ∧ ∀ i < p.numRows + p.dimension,
      pt.z i ≠ .undefined ∧ ∃ v, pt.z i = Scalar.smaller (Scalar.larger v ((Constraints.ofProgram p).lower i))
        ((Constraints.ofProgram p).upper i) := by
    subst hpt
    exact Point.next_within hlower hupper hsize hmultipliers
  have hcases : (∃ r, (pt.residuals (System.ofProgram p)).primal = .real r) ∨
      (pt.residuals (System.ofProgram p)).primal = .plusInfinity := by
    rw [residuals_primal] at hprimal ⊢
    exact Vec.maxNorm_cases_of_le hprimal
  obtain ⟨e, hreal⟩ | hinfinite := hcases
  · have hk : 0 < p.numRows + p.dimension := by omega
    obtain ⟨w, z, hw, hzreal, hnorm⟩ := Point.exists_real_of_primal R hk hz (fun i hi => (hmoved i hi).1) hreal
    rw [hreal, hw, ← hnorm]
    refine R.maxViolation_le (norm_nonneg _) fun i => ?_
    obtain ⟨hdefined, v, hv⟩ := hmoved i i.isLt
    have hcross : ¬ (Constraints.ofProgram p).upper i < (Constraints.ofProgram p).lower i :=
      Constraints.crossed?_eq_none_iff.1 hcrossed i i.isLt
    have hkept := Scalar.smaller_larger_within hcross (hv ▸ Exact.defined_iff.2 hdefined)
    rw [← hv, hzreal, Vec.get_ofReal_fin] at hkept
    have hmiss := abs_le.1 (norm_le_pi_norm (R.stacked *ᵥ w - z) i)
    rw [Pi.sub_apply] at hmiss
    exact ⟨fun hbound => Exact.sub_real_le (hkept.1 (Exact.defined_iff.2 hbound)) (by linarith),
      fun hbound => Exact.real_sub_le (hkept.2 (Exact.defined_iff.2 hbound)) (by linarith)⟩
  · rw [hinfinite]
    exact Program.maxViolation_le_infinity (Exact.defined_iff.2 nofun) pt.w

/-! ## Solutions -/

/-- A solution of a program with variables is past no bound by more than a tolerance: that of the
refinement if it was refined, else that of the last point of the iteration. A program without variables is
answered with the empty vector, and this is past nothing only if it has no rows either. -/
theorem Solver.solve_maxViolation_le {kernels : Kernels Exact} {clock : ℕ → Exact} {solver : Solver Exact}
    {p : Program Exact} {solution : Solution Exact}
    (hresult : (solver.solve kernels clock p).result = .ok solution) :
    (0 < p.dimension → ∃ o, solver.iterate? kernels clock (System.ofProgram p) = some o ∧
        ((solver.solve kernels clock p).info.polished = true →
          p.maxViolation solution.w ≤ solver.settings.refinedTolerance p solution.w) ∧
        ((solver.solve kernels clock p).info.polished = false →
          p.maxViolation solution.w ≤
            solver.settings.primalTolerance (o.loop.point.residuals (System.ofProgram p)))) ∧
      (p.dimension = 0 → solution.w = Vec.empty ∧ (p.numRows = 0 → p.maxViolation solution.w = 0.0)) := by
  obtain ⟨f, -, hsolve⟩ | ⟨-, hzero, hsolve⟩ | ⟨-, -, i, -, hsolve⟩ |
    ⟨hcheck, hn, hcrossed, ⟨-, hsolve⟩ | ⟨o, ho, hsolve⟩⟩ := solver.solve_cases kernels clock p
  · rw [hsolve] at hresult
    cases hresult
  · rw [hsolve] at hresult
    cases hresult
    refine ⟨fun hn => absurd hzero (Nat.pos_iff_ne_zero.1 hn), fun _ => ⟨rfl, fun hrows => ?_⟩⟩
    unfold Program.maxViolation
    dsimp only
    rw [if_pos hrows, if_pos hzero]
  · rw [hsolve] at hresult
    cases hresult
  · rw [hsolve] at hresult
    cases hresult
  · rw [hsolve] at hresult ⊢
    refine ⟨fun _ => ⟨o, ho, fun hpolished => ?_, fun hpolished => ?_⟩,
      fun hzero => absurd hzero (Nat.pos_iff_ne_zero.1 hn)⟩
    · obtain ⟨refined, hrefined, hanswer⟩ := Outcome.answer_polished hpolished
      rw [hanswer] at hresult
      cases hresult
      exact ActiveSet.polish?_maxViolation hrefined
    · obtain ⟨R⟩ := Program.exists_reals hcheck
      obtain ⟨hending, hsolution, -, -⟩ := Outcome.answer_unpolished hresult hpolished
      obtain ⟨start, -, hends⟩ := iterate?_ends ho
      cases hends with
      | exhausted h => cases hending
      | @stopped k l l' ending h hlt hchecked hcheck =>
        obtain ⟨hend, -⟩ | ⟨hend, -⟩ | ⟨-, hmeasured, hsmall⟩ | ⟨hend, -⟩ := Loop.check_error hcheck
        · cases hend.symm.trans hending
        · cases hend.symm.trans hending
        · obtain ⟨hpoint, -, -⟩ := Loop.of_measured hmeasured
          rw [← hpoint, Residuals.areSmall, Bool.and_eq_true, decide_eq_true_eq, decide_eq_true_eq] at hsmall
          subst hsolution
          exact OrderedScalar.trans _ _ _ (Point.maxViolation_le R hn hcrossed hpoint hsmall.1 hsmall.2) hsmall.1
        · cases hend.symm.trans hending

theorem Solver.solve_maxViolation_le_ramp :
    ∃ solution, ((⟨.oneStep false⟩ : Solver Exact).solve .standard (fun _ => 0.0) ramp).result = .ok solution ∧
      ∃ o, (⟨.oneStep false⟩ : Solver Exact).iterate? .standard (fun _ => 0.0) (System.ofProgram ramp) = some o ∧
        ramp.maxViolation solution.w ≤
          (Settings.oneStep false).primalTolerance (o.loop.point.residuals (System.ofProgram ramp)) := by
  obtain ⟨l, -, hsolve⟩ := solve_ramp Kernels.standard.general false
  have hpolished : ((⟨.oneStep false⟩ : Solver Exact).solve .standard (fun _ => 0.0) ramp).info.polished =
      false := congrArg (fun answer => answer.info.polished) hsolve
  have hresult : ((⟨.oneStep false⟩ : Solver Exact).solve .standard (fun _ => 0.0) ramp).result =
      .ok ⟨l.point.w, ramp.objective l.point.w⟩ := congrArg Answer.result hsolve
  obtain ⟨hvariables, -⟩ := Solver.solve_maxViolation_le hresult
  obtain ⟨o, ho, -, hbound⟩ := hvariables Nat.one_pos
  exact ⟨_, hresult, o, ho, hbound hpolished⟩

/-! ## A row without variables -/

/-- No variables and one row, whose sum of nothing is asked to be at least one. -/
noncomputable def rowAlone : Program Exact where
  quadratic := .zero 0 0
  linear := .empty
  constant := .real 0
  rows := .zero 1 0
  rowLower := .single 1
  rowUpper := ⟨#[.plusInfinity]⟩
  lower := .empty
  upper := .empty

def rowAloneReals : rowAlone.Reals where
  H := 0
  f := 0
  A := 0
  quadratic_eq := Mat.ext rfl rfl fun _ hi => absurd hi (Nat.not_lt_zero _)
  linear_eq := Vec.ext rfl fun _ hi => absurd hi (Nat.not_lt_zero _)
  rows_eq _ := Mat.ext rfl rfl fun _ _ _ hj => absurd hj (Nat.not_lt_zero _)
  rowUpper_size := rfl
  lower_size := rfl
  upper_size := rfl

theorem mulVec_rowAlone (w : Vec Exact) (hw : w.size = 0) : rowAlone.rows.mulVec w = .single 0 := by
  refine Vec.eq_single rfl ?_
  refine (Mat.get_mulVec w Nat.one_pos).trans ?_
  rw [hw]
  exact Exact.zero_literal

theorem not_isFeasible_rowAlone (w : Vec Exact) : ¬ rowAlone.IsFeasible w := by
  intro hw
  have hrow := (hw.rows 0 Nat.one_pos).1
  rw [mulVec_rowAlone w hw.size] at hrow
  exact absurd (Exact.real_le_real.1 hrow) (by norm_num)

theorem maxViolation_rowAlone : rowAlone.maxViolation .empty = .real 1 := by
  have hbelow : (Vec.single 1 - Vec.single 0).maximum = .real 1 := by
    change Exact.real 1 - .real 0 = _
    rw [Exact.real_sub, sub_zero]
  have habove : (Vec.single 0 - ⟨#[.plusInfinity]⟩).maximum = .minusInfinity := rfl
  have hworst : Program.worstExcess 0.0 (.single 0) rowAlone.rowLower rowAlone.rowUpper = .real 1 := by
    change Scalar.larger (Scalar.larger 0.0 (Vec.single 1 - Vec.single 0).maximum)
      (Vec.single 0 - ⟨#[.plusInfinity]⟩).maximum = _
    rw [hbelow, habove, Exact.zero_literal, Exact.larger_real, max_eq_right zero_le_one]
    exact if_neg (Exact.not_lt_minusInfinity _)
  unfold Program.maxViolation
  rw [mulVec_rowAlone .empty rfl, hworst]
  rfl

/-- The row is never looked at: the answer is the empty vector, which is past the row by one. -/
theorem Solver.solve_rowAlone :
    Solver.ofSettings .standard = .ok (⟨.standard⟩ : Solver Exact) ∧ (∀ w, ¬ rowAlone.IsFeasible w) ∧
      ∃ solution, ((⟨.standard⟩ : Solver Exact).solve .standard (fun _ => 0.0) rowAlone).result = .ok solution ∧
        rowAlone.maxViolation solution.w = .real 1 ∧
        ¬ rowAlone.maxViolation solution.w ≤ Scalar.larger
          (Settings.standard.primalTolerance
            ((Point.start (System.ofProgram rowAlone)).residuals (System.ofProgram rowAlone)))
          (Settings.standard.refinedTolerance rowAlone solution.w) := by
  have hsolve : ((⟨.standard⟩ : Solver Exact).solve .standard (fun _ => 0.0) rowAlone).result =
      .ok ⟨.empty, .real 0⟩ := by
    unfold Solver.solve
    rw [rowAloneReals.check]
    rfl
  refine ⟨?_, not_isFeasible_rowAlone, _, hsolve, maxViolation_rowAlone, ?_⟩
  · have haccepted : (Settings.standard : Settings Exact).validate = .ok () := by
      unfold Settings.validate
      simp only [Settings.standard, Exact.literal, Exact.real_le_real]
      norm_num
    unfold Solver.ofSettings
    rw [haccepted]
  · have hlinear : rowAlone.linear = .empty := rfl
    have hempty : (Vec.empty : Vec Exact).maxNorm = .real 0 := Exact.zero_literal
    rw [maxViolation_rowAlone, Point.start_ofReal, Point.residuals_ofReal rowAloneReals,
      Settings.primalTolerance, Settings.refinedTolerance, hlinear, hempty, mulVec_zero, norm_zero, max_self]
    simp only [Settings.standard, Exact.literal, Exact.real_mul, Exact.real_add, Exact.larger_real,
      Exact.real_le_real]
    norm_num

end Splitting
end BinarySplitting
