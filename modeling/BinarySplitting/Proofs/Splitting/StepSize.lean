import BinarySplitting.Proofs.Splitting.Line

/-!
# The step size stays positive

The step size is divided by in every iteration. It changes in the checks alone, to a value between the limits
of the settings; that it changed shows that this value was compared, so it is defined even where the ratio of
the residuals is not (`Loop.stepSize_check`). So a run whose limits are positive and in order never leaves them
once its step size has changed, whatever the residuals are (`Solver.throughout_stepSize`).

The settings are accepted without a look at the limits (`Settings.validate_limits`). With a limit of zero the
first iterate that is within all bounds makes the step size zero (`Solver.stepSize_zero_limit`): then nothing is
missed, and the ratio of the residuals is zero.
-/

namespace BinarySplitting.Splitting

open Matrix

section generic

variable {α : Type} [Scalar α]

theorem Settings.validate_limits (settings : Settings α) (rhoMin rhoMax : α) :
    { settings with rhoMin, rhoMax }.validate = settings.validate := rfl

theorem Solver.ofSettings_ok {settings : Settings α} {solver : Solver α} :
    ofSettings settings = .ok solver ↔ settings.validate = .ok () ∧ solver = ⟨settings⟩ := by
  unfold ofSettings
  constructor
  · intro h
    split at h
    · next hvalid =>
      cases h
      exact ⟨hvalid, rfl⟩
    · cases h
  · rintro ⟨hvalid, rfl⟩
    rw [hvalid]

/-- A step size that the settings allow: the first one or one between the limits. -/
structure Settings.Allows (settings : Settings α) (rho : α) : Prop where
  pos : 0.0 < rho
  within : rho = settings.rho ∨ settings.rhoMin ≤ rho ∧ rho ≤ settings.rhoMax

/-- The first step size is positive, and so are the limits of its changes, which are in order. -/
structure Settings.KeepsStepSize (settings : Settings α) : Prop where
  first : 0.0 < settings.rho
  limits : settings.adaptive = true → 0.0 < settings.rhoMin ∧ settings.rhoMin ≤ settings.rhoMax

variable [OrderedScalar α]

theorem Settings.defined_of_changes {settings : Settings α} {rho new : α} (h : settings.changes rho new = true) :
    new ≤ new := by
  rw [changes, Bool.or_eq_true, decide_eq_true_eq, decide_eq_true_eq] at h
  rcases h with hgrows | hshrinks
  · exact (OrderedScalar.refl_of_le _ _ (OrderedScalar.le_of_lt hgrows)).2
  · exact (OrderedScalar.refl_of_le _ _ (OrderedScalar.le_of_lt hshrinks)).1

variable {factor : Mat α → Option (LinearSolver α)} {s : System α} {settings : Settings α} {elapsed : α}
  {l l' : Loop α}

theorem Loop.stepSize_check (hlimits : settings.adaptive = true → settings.rhoMin ≤ settings.rhoMax)
    (h : l.check factor s settings elapsed = .ok l') :
    l'.rho = l.rho ∨ settings.adaptive = true ∧ settings.rhoMin ≤ l'.rho ∧ l'.rho ≤ settings.rhoMax := by
  obtain rfl | ⟨hadaptive, hchanges, solver, -, rfl⟩ := adapt?_some (check_ok h)
  · exact Or.inl rfl
  · exact Or.inr ⟨hadaptive, Scalar.clamp_within (hlimits hadaptive) (Settings.defined_of_changes hchanges)⟩

theorem Loop.allows_check (hsettings : settings.KeepsStepSize) (hl : settings.Allows l.rho)
    (h : l.check factor s settings elapsed = .ok l') : settings.Allows l'.rho := by
  obtain hkept | ⟨hadaptive, hwithin⟩ := stepSize_check (fun hadaptive => (hsettings.limits hadaptive).2) h
  · rwa [hkept]
  · exact ⟨OrderedScalar.lt_of_lt_of_le (hsettings.limits hadaptive).1 hwithin.1, Or.inr hwithin⟩

variable {kernels : Kernels α} {clock : ℕ → α} {solver : Solver α} {p : Program α} {start : Loop α} {k : ℕ}

omit [OrderedScalar α] in
theorem Loop.start?_rho (h : Loop.start? factor s settings = some start) : start.rho = settings.rho := by
  obtain ⟨solver, -, rfl⟩ := Option.map_eq_some_iff.1 h
  rfl

theorem Loop.Leads.allows (hsettings : settings.KeepsStepSize)
    (h : Loop.Leads factor clock s settings start k l) (hstart : settings.Allows start.rho) :
    settings.Allows l.rho := by
  induction h with
  | refl => exact hstart
  | unchecked h hskip ih => exact ih
  | @checked k l next h hchecked hcheck ih =>
    have hmoved : settings.Allows (l.moved s settings).rho := ih
    exact Loop.allows_check hsettings hmoved hcheck

theorem Loop.Ends.allows (hsettings : settings.KeepsStepSize) {n : ℕ} {o : Outcome α}
    (h : Loop.Ends factor clock s settings start n o) (hstart : settings.Allows start.rho) :
    settings.Allows o.loop.rho := by
  cases h with
  | exhausted h => exact h.allows hsettings hstart
  | @stopped k l l' ending h hlt hchecked hcheck =>
    have hl := h.allows hsettings hstart
    rwa [(Loop.check_error_kept hcheck).2]

end generic

/-! ## Accepted settings -/

variable {settings : Settings Exact} {solver : Solver Exact}

theorem Settings.rho_pos (hvalid : settings.validate = .ok ()) (hdefined : settings.rho ≠ .undefined) :
    0.0 < settings.rho := by
  unfold validate at hvalid
  split at hvalid
  · cases hvalid
  next hstep =>
  have hzero : (0.0 : Exact) ≤ 0.0 := Exact.defined_iff.2 nofun
  exact (OrderedScalar.lt_or_le hzero (Exact.defined_iff.2 hdefined)).resolve_right fun h => hstep (Or.inl h)

/-- **The step size stays positive**: with accepted settings whose limits are positive and in order, every
iteration begins with an allowed step size, and a run ends with one, whatever the routines answer and whatever
the residuals are. -/
theorem Solver.throughout_stepSize (haccepted : ofSettings settings = .ok solver)
    (hdefined : settings.rho ≠ .undefined)
    (hlimits : settings.adaptive = true → 0.0 < settings.rhoMin ∧ settings.rhoMin ≤ settings.rhoMax)
    (kernels : Kernels Exact) (clock : ℕ → Exact) (p : Program Exact) :
    solver.Throughout kernels clock p (fun l => settings.Allows l.rho) ∧
      ∀ o, solver.iterate? kernels clock (System.ofProgram p) = some o → settings.Allows o.loop.rho := by
  obtain ⟨hvalid, rfl⟩ := ofSettings_ok.1 haccepted
  have hsettings : settings.KeepsStepSize := ⟨Settings.rho_pos hvalid hdefined, hlimits⟩
  have hfirst : ∀ start, Loop.start? kernels.symmetric? (System.ofProgram p) settings = some start →
      settings.Allows start.rho := fun start hstart => by
    rw [Loop.start?_rho hstart]
    exact ⟨hsettings.first, Or.inl rfl⟩
  constructor
  · intro start hstart k _ l h
    exact h.allows hsettings (hfirst start hstart)
  · intro o ho
    obtain ⟨start, hstart, hends⟩ := iterate?_ends ho
    exact hends.allows hsettings (hfirst start hstart)

theorem Settings.validate_standard : (Settings.standard : Settings Exact).validate = .ok () := by
  unfold validate
  simp only [standard, Exact.literal, Exact.real_le_real]
  norm_num

/-- Minimises `-0.01 w` over the unit interval. -/
noncomputable def slope : Program Exact := .line 0 (-0.01) 1 0 (.real 1)

/-- With the standard settings, whose first step size and limits are positive. -/
theorem Solver.throughout_stepSize_slope :
    ofSettings .standard = .ok (⟨.standard⟩ : Solver Exact) ∧
      (Settings.standard : Settings Exact).rho ≠ .undefined ∧
      (0.0 : Exact) < Settings.standard.rhoMin ∧
      (Settings.standard : Settings Exact).rhoMin ≤ Settings.standard.rhoMax ∧
      ∃ start, Loop.start? Kernels.standard.symmetric? (System.ofProgram slope) .standard = some start ∧
        Settings.standard.Allows start.rho ∧
        ∀ o, (⟨.standard⟩ : Solver Exact).iterate? .standard (fun _ => 0.0) (System.ofProgram slope) = some o →
          Settings.standard.Allows o.loop.rho := by
  have haccepted : ofSettings .standard = .ok (⟨.standard⟩ : Solver Exact) :=
    ofSettings_ok.2 ⟨Settings.validate_standard, rfl⟩
  have hdefined : (Settings.standard : Settings Exact).rho ≠ .undefined := nofun
  have hpos : (0.0 : Exact) < Settings.standard.rhoMin := by
    change (0.0 : Exact) < .real 1e-6
    rw [Exact.zero_literal, Exact.real_lt_real]
    norm_num
  have hle : (Settings.standard : Settings Exact).rhoMin ≤ Settings.standard.rhoMax := by
    change Exact.real 1e-6 ≤ .real 1e6
    rw [Exact.real_le_real]
    norm_num
  have hsigma : (Settings.standard : Settings Exact).sigma = .real 1e-6 := rfl
  have hfirst : (Settings.standard : Settings Exact).rho = .real 0.1 := rfl
  obtain ⟨start, hstart, -⟩ := Program.start?_line 0 (-0.01) 1 0 (.real 1) Settings.standard hsigma hfirst
    (by norm_num)
  obtain ⟨hbegins, hends⟩ := throughout_stepSize haccepted hdefined (fun _ => ⟨hpos, hle⟩) .standard
    (fun _ => 0.0) slope
  exact ⟨haccepted, hdefined, hpos, hle, start, hstart, hbegins start hstart 0 (by decide) start .refl, hends⟩

/-! ## A limit of zero -/

theorem Residuals.stepSize_of_primal_zero (settings : Settings Exact) {ρ dual image force : ℝ} (hdual : 0 ≤ dual) :
    (⟨.real 0, .real dual, .real image, .real force⟩ : Residuals Exact).stepSize settings (.real ρ) =
      Scalar.clamp (.real 0) settings.rhoMin settings.rhoMax := by
  have hscale : ∀ a : ℝ, 0 < max a (1e-30 : ℝ) := fun a => lt_max_of_lt_right (by norm_num)
  have hratio : 0 ≤ dual / max force (1e-30 : ℝ) := div_nonneg hdual (hscale force).le
  unfold stepSize
  simp only [Exact.literal, Exact.larger_real]
  rw [Exact.real_div _ (hscale image).ne', Exact.real_div _ (hscale force).ne', Exact.larger_real,
    Exact.real_div _ (hscale _).ne', zero_div, zero_div, Exact.real_sqrt le_rfl, Real.sqrt_zero, Exact.real_mul,
    mul_zero]

/-- A point within all bounds that is not yet good enough leads to a step size of zero, if zero is the limit. -/
theorem Loop.check_of_primal_zero {factor : Mat Exact → Option (LinearSolver Exact)} {s : System Exact}
    {elapsed : Exact} {l : Loop Exact} {linear : LinearSolver Exact} {ρ a dual image force : ℝ}
    (htime : ¬ settings.timeLimit ≤ elapsed)
    (hcertificate : s.constraints.isInfeasibleAlong l.point.dy settings.infeasibility = false)
    (hresiduals : l.point.residuals s = ⟨.real 0, .real dual, .real image, .real force⟩) (hdual : 0 ≤ dual)
    (hlarge : ¬ .real dual ≤ settings.absolute + settings.relative * .real force)
    (hadaptive : settings.adaptive = true) (hfactor : settings.adaptiveFactor = .real a) (ha : 0 < a)
    (hrho : l.rho = .real ρ) (hρ : 0 < ρ)
    (hlimit : Scalar.clamp (.real 0) settings.rhoMin settings.rhoMax = .real 0)
    (hsolver : factor (s.matrix settings (.real 0)) = some linear) :
    l.check factor s settings elapsed = .ok { l.measured s with rho := .real 0, solver := linear } := by
  have hnotsmall : ¬ (l.point.residuals s).areSmall settings = true := by
    rw [Residuals.areSmall, Bool.and_eq_true, decide_eq_true_eq, decide_eq_true_eq, hresiduals]
    exact fun h => hlarge h.2
  have hnew : (l.point.residuals s).stepSize settings l.rho = .real 0 := by
    rw [hresiduals, hrho, Residuals.stepSize_of_primal_zero settings hdual, hlimit]
  have hchanges : settings.changes l.rho (.real 0) = true := by
    have hshrinks : Exact.real 0 < l.rho / settings.adaptiveFactor := by
      rw [hrho, hfactor, Exact.real_div _ ha.ne', Exact.real_lt_real]
      exact div_pos hρ ha
    rw [Settings.changes, decide_eq_true hshrinks, Bool.or_true]
  have hadapt : (l.measured s).adapt? factor s settings (l.point.residuals s) =
      some { l.measured s with rho := .real 0, solver := linear } := by
    have hkept : (l.measured s).rho = l.rho := rfl
    unfold adapt?
    dsimp only
    rw [hkept, hnew, hadaptive, hchanges, hsolver]
    rfl
  unfold check
  rw [if_neg htime, hcertificate, if_neg Bool.false_ne_true]
  dsimp only
  rw [if_neg hnotsmall]
  unfold measured at hadapt
  rw [hadapt]
  rfl

noncomputable def slopeReals : slope.Reals := Program.lineReals 0 (-0.01) 1 0 (.real 1)

/-- The standard settings with a step size that may become zero. -/
noncomputable def Settings.zeroLimit : Settings Exact := { Settings.standard with rhoMin := 0.0 }

theorem moved_slope : ∃ (l : Loop Exact) (w : Fin slope.dimension → ℝ),
    Loop.start? Kernels.standard.symmetric? (System.ofProgram slope) .zeroLimit = some l ∧
      l.rho = .real 0.1 ∧ (l.moved (System.ofProgram slope) .zeroLimit).point =
        .ofReal w (slopeReals.stacked *ᵥ w) 0 0 := by
  have hsigma : Settings.zeroLimit.sigma = .real 1e-6 := rfl
  have hfirst : Settings.zeroLimit.rho = .real 0.1 := rfl
  have halpha : Settings.zeroLimit.alpha = .real 1.6 := rfl
  obtain ⟨l, hstart, hpoint, hrho, hsolved⟩ := Program.start?_line 0 (-0.01) 1 0 (.real 1) Settings.zeroLimit
    hsigma hfirst (by norm_num)
  have hanswer : l.solved (System.ofProgram slope) .zeroLimit =
      .ofReal fun _ : Fin slope.dimension => (10000 / 200001 : ℝ) := by
    refine hsolved.trans ?_
    norm_num
    exact Vec.single_eq_ofReal fun _ => 10000 / 200001
  obtain ⟨z, hz, hmoved⟩ := Loop.moved_start slopeReals
    (Program.ordered_line 0 (-0.01) 1 0 _ (Exact.real_le_real.2 zero_le_one)) halpha (by norm_num) hpoint hrho hanswer
  have hadmits : (Constraints.ofProgram slope).Admits
      ((1.6 : ℝ) • slopeReals.stacked *ᵥ fun _ : Fin slope.dimension => (10000 / 200001 : ℝ)) := by
    rw [← mulVec_smul]
    refine (slopeReals.isFeasible_iff _).1 ((Program.isFeasible_line_iff 0 (-0.01) 1 0 (.real 1)
      ((1.6 : ℝ) • (10000 / 200001))).2 ⟨?_, ?_, Exact.real_le_real.2 ?_⟩)
    · norm_num
    · norm_num
    · norm_num
  have hkept := hz.unique hadmits.isNearest
  rw [hkept, sub_self, smul_zero, ← mulVec_smul] at hmoved
  exact ⟨l, _, hstart, hrho, hmoved⟩

theorem residuals_slope (w : Fin slope.dimension → ℝ) :
    (Point.ofReal w (slopeReals.stacked *ᵥ w) 0 0).residuals (System.ofProgram slope) =
      ⟨.real 0, .real 0.01, .real ‖slopeReals.stacked *ᵥ w‖, .real 0.01⟩ := by
  have hflat : slopeReals.H = 0 := rfl
  have hforce : ‖slopeReals.f‖ = 0.01 := by
    refine (norm_fin_one _).trans ?_
    change |(-0.01 : ℝ)| = 0.01
    norm_num
  rw [Point.residuals_ofReal slopeReals, hflat, zero_mulVec, mulVec_zero, zero_add, add_zero, sub_self, norm_zero,
    max_self, max_self, hforce, norm_zero]
  norm_num

theorem check_slope : ∃ start l,
    Loop.start? Kernels.standard.symmetric? (System.ofProgram slope) .zeroLimit = some start ∧
      (start.moved (System.ofProgram slope) .zeroLimit).check Kernels.standard.symmetric? (System.ofProgram slope)
        .zeroLimit 0.0 = .ok l ∧ l.rho = .real 0 := by
  obtain ⟨start, w, hstart, hrho, hmoved⟩ := moved_slope
  have htime : ¬ Settings.zeroLimit.timeLimit ≤ (0.0 : Exact) := by
    rw [Exact.zero_literal]
    exact Exact.not_plusInfinity_le_real 0
  have hcertificate : (System.ofProgram slope).constraints.isInfeasibleAlong
      (start.moved (System.ofProgram slope) .zeroLimit).point.dy Settings.zeroLimit.infeasibility = false := by
    have hsmall : (Vec.ofReal (0 : Fin (slope.numRows + slope.dimension) → ℝ)).maxNorm ≤ 1e-30 := by
      rw [Vec.maxNorm_ofReal, norm_zero, Exact.literal, Exact.real_le_real]
      norm_num
    rw [hmoved]
    exact if_pos hsmall
  have hresiduals := residuals_slope w
  rw [← hmoved] at hresiduals
  have hlarge : ¬ Exact.real 0.01 ≤ Settings.zeroLimit.absolute + Settings.zeroLimit.relative * .real 0.01 := by
    change ¬ Exact.real 0.01 ≤ .real (1e-9 + 1e-9 * 0.01)
    rw [Exact.real_le_real]
    norm_num
  have hfactor : Settings.zeroLimit.adaptiveFactor = .real 5.0 := rfl
  have hlimit : Scalar.clamp (.real 0) Settings.zeroLimit.rhoMin Settings.zeroLimit.rhoMax = .real 0 := by
    change Scalar.clamp (.real 0) (0.0 : Exact) (.real 1e6) = .real 0
    rw [Exact.zero_literal]
    exact Scalar.clamp_of_mem (Exact.real_le_real.2 le_rfl) (Exact.real_le_real.2 (by norm_num))
  have hsigma : Settings.zeroLimit.sigma = .real 1e-6 := rfl
  obtain ⟨linear, hlinear, -⟩ := Ldlt.symmetric?_single
    (Ldlt.tiny_lt_of_micro (a := 0 + 1e-6 + 0 * (1 * 1 + 1)) (by norm_num))
  have hsolver : Kernels.standard.symmetric? ((System.ofProgram slope).matrix .zeroLimit (.real 0)) =
      some linear := by
    rw [slope, Program.matrix_line 0 (-0.01) 1 0 (.real 1) .zeroLimit hsigma]
    exact hlinear
  exact ⟨start, _, hstart, Loop.check_of_primal_zero htime hcertificate hresiduals (by norm_num) hlarge rfl hfactor
    (by norm_num) hrho (by norm_num) hlimit hsolver, rfl⟩

/-- **The limits are accepted unchecked**: with a limit of zero the second iteration of a run on a program that
is well formed begins with a step size of zero. -/
theorem Solver.stepSize_zero_limit :
    Solver.ofSettings .zeroLimit = .ok (⟨.zeroLimit⟩ : Solver Exact) ∧ check slope = .ok () ∧
      0 < slope.dimension ∧ slope.WellBounded ∧ (Constraints.ofProgram slope).crossed? = none ∧
      ¬ (⟨.zeroLimit⟩ : Solver Exact).Throughout .standard (fun _ => 0.0) slope fun l => 0.0 < l.rho := by
  have haccepted : Settings.zeroLimit.validate = .ok () :=
    (Settings.validate_limits .standard 0.0 Settings.standard.rhoMax).trans Settings.validate_standard
  have hupper : Exact.real 0 ≤ .real 1 := Exact.real_le_real.2 zero_le_one
  refine ⟨Solver.ofSettings_ok.2 ⟨haccepted, rfl⟩, slopeReals.check, Nat.one_pos,
    Program.wellBounded_line 0 (-0.01) 1 0 _ hupper, (Program.ordered_line 0 (-0.01) 1 0 _ hupper).crossed?_eq_none rfl,
    fun hpositive => ?_⟩
  obtain ⟨start, l, hstart, hcheck, hrho⟩ := check_slope
  have hpos := hpositive start hstart 1 (by decide) l (.checked .refl rfl hcheck)
  dsimp only at hpos
  rw [hrho, Exact.zero_literal, Exact.real_lt_real] at hpos
  exact lt_irrefl 0 hpos

end BinarySplitting.Splitting
