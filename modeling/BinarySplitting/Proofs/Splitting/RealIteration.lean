import BinarySplitting.Proofs.Linear.Norms
import BinarySplitting.Proofs.Splitting.Constraints
import BinarySplitting.Proofs.Splitting.Trace

/-!
# Iterations over the reals

The bounds of a program may be infinite, but where no lower bound is positive infinity and no upper
bound negative infinity, every real has a real nearest point between them
(`exists_nearest`). So an iteration with a positive step size makes a real point from
a real one, whatever real vector the linear system is answered with, and its image and multipliers
are two parts of one vector: the nearest point of the bounds and the step size times the rest
(`Point.next_ofReal`). That is all the analysis of the iteration needs.
-/

namespace BinarySplitting

open Matrix

/-! ## Bounds -/

/-- No lower bound is positive infinity and no upper bound negative infinity. -/
structure Program.WellBounded {α : Type} [Scalar α] (p : Program α) : Prop where
  rows : ∀ i < p.numRows, p.rowLower i < Scalar.infinity ∧ -Scalar.infinity < p.rowUpper i
  bounds : ∀ j < p.dimension, p.lower j < Scalar.infinity ∧ -Scalar.infinity < p.upper j

theorem raise_real {lo : Exact} (hlo : lo < Scalar.infinity) (v : ℝ) :
    ∃ r : ℝ, Scalar.larger (.real v) lo = .real r ∧ lo ≤ .real r ∧ v ≤ r ∧ (v < r → lo = .real r) := by
  cases lo with
  | undefined => exact absurd hlo.1 (Exact.not_undefined_le _)
  | plusInfinity => exact absurd hlo (Exact.not_plusInfinity_lt _)
  | minusInfinity =>
    exact ⟨v, if_neg (Exact.not_lt_minusInfinity _), Exact.minusInfinity_le_real v, le_rfl,
      fun h => absurd h (lt_irrefl v)⟩
  | real lo =>
    refine ⟨max v lo, Exact.larger_real v lo, Exact.real_le_real.2 (le_max_right v lo), le_max_left v lo,
      fun h => ?_⟩
    rw [max_eq_right (lt_max_iff.1 h |>.resolve_left (lt_irrefl v)).le]

/-- A real has a real nearest point between bounds that are real or infinite on their own side. -/
theorem exists_nearest {lo hi : Exact} (hlo : lo < Scalar.infinity) (hhi : -Scalar.infinity < hi)
    (hle : ¬ hi < lo) (v : ℝ) :
    ∃ z : ℝ, Scalar.smaller (Scalar.larger (.real v) lo) hi = .real z ∧
      (lo ≤ .real z ∧ .real z ≤ hi) ∧ (z < v → hi = .real z) ∧ (v < z → lo = .real z) := by
  obtain ⟨r, hr, hlor, hvr, hraised⟩ := raise_real hlo v
  rw [hr]
  cases hi with
  | undefined => exact absurd hhi.1 (Exact.not_le_undefined _)
  | minusInfinity => exact absurd hhi (Exact.not_lt_minusInfinity _)
  | plusInfinity =>
    exact ⟨r, Exact.smaller_plusInfinity _, ⟨hlor, Exact.real_le_plusInfinity r⟩,
      fun h => absurd h (not_lt.2 hvr), hraised⟩
  | real hi =>
    refine ⟨min r hi, Exact.smaller_real r hi, ⟨?_, Exact.real_le_real.2 (min_le_right r hi)⟩, ?_, ?_⟩
    · rcases min_choice r hi with h | h
      · rwa [h]
      · rw [h]
        exact (OrderedScalar.lt_or_le (Exact.real_le_real.2 le_rfl)
          (OrderedScalar.refl_of_le _ _ hlor).1).resolve_left hle
    · intro h
      have hhir : hi < r := by
        rcases min_lt_iff.1 h with h' | h'
        · exact absurd h' (not_lt.2 hvr)
        · exact lt_of_lt_of_le h' hvr
      rw [min_eq_right hhir.le]
    · intro h
      -- The raised value was raised to the lower bound, which is not above the upper one.
      have hlo' := hraised (h.trans_le (min_le_left r hi))
      rw [hlo', Exact.real_lt_real, not_lt] at hle
      rw [hlo', min_eq_left hle]

namespace Splitting

namespace Constraints

variable {c : Constraints Exact} {k : ℕ}

/-- The nearest values within the bounds: where one is moved, it is moved to a bound. -/
structure IsNearest (c : Constraints Exact) (v z : Fin k → ℝ) : Prop where
  admits : c.Admits z
  lowered : ∀ i, z i < v i → c.upper i = .real (z i)
  raised : ∀ i, v i < z i → c.lower i = .real (z i)

/-- The bounds of all constraints are in order: none that is infinite is on the other side, and no
two are crossed. -/
structure Ordered (c : Constraints Exact) (k : ℕ) : Prop where
  lower_size : c.lower.size = k
  upper_size : c.upper.size = k
  bounded : ∀ i < k, c.lower i < Scalar.infinity ∧ -Scalar.infinity < c.upper i
  uncrossed : ∀ i < k, ¬ c.upper i < c.lower i

theorem Ordered.crossed?_eq_none (hc : c.Ordered k) (hsize : c.size = k) : c.crossed? = none := by
  refine crossed?_eq_none_iff.2 fun i hi => ?_
  rw [hsize] at hi
  exact hc.uncrossed i hi

theorem exists_isNearest (hc : c.Ordered k) (v : Fin k → ℝ) :
    ∃ z : Fin k → ℝ, (Vec.ofReal v).within c.lower c.upper = Vec.ofReal z ∧ c.IsNearest v z := by
  have hnearest : ∀ i : Fin k, ∃ z : ℝ,
      Scalar.smaller (Scalar.larger (.real (v i)) (c.lower i)) (c.upper i) = .real z ∧
        (c.lower i ≤ .real z ∧ .real z ≤ c.upper i) ∧ (z < v i → c.upper i = .real z) ∧
          (v i < z → c.lower i = .real z) := fun i =>
    exists_nearest (hc.bounded i i.isLt).1 (hc.bounded i i.isLt).2 (hc.uncrossed i i.isLt) (v i)
  choose z hz hadmits hlowered hraised using hnearest
  refine ⟨z, ?_, hadmits, hlowered, hraised⟩
  unfold Vec.within Vec.zip
  rw [Vec.size_ofReal, Vec.size_ofFn, hc.lower_size, hc.upper_size, max_self, max_self]
  apply Vec.ofFn_eq_ofReal
  intro i
  rw [Vec.get_ofFn _ i.isLt, Vec.get_ofReal_fin, hz]

theorem IsNearest.unique {v z z' : Fin k → ℝ} (h : c.IsNearest v z) (h' : c.IsNearest v z') : z = z' := by
  have hle : ∀ {a b : Fin k → ℝ}, c.IsNearest v a → c.IsNearest v b → ∀ i, a i ≤ b i := by
    intro a b ha hb i
    refine not_lt.1 fun hlt => ?_
    rcases lt_or_ge (v i) (a i) with hraised | hkept
    · have hlower := (hb.admits i).1
      rw [ha.raised i hraised, Exact.real_le_real] at hlower
      exact absurd hlt (not_lt.2 hlower)
    · have hupper := (ha.admits i).2
      rw [hb.lowered i (hlt.trans_le hkept), Exact.real_le_real] at hupper
      exact absurd hlt (not_lt.2 hupper)
  exact funext fun i => le_antisymm (hle h h' i) (hle h' h i)

theorem Admits.isNearest {v : Fin k → ℝ} (hv : c.Admits v) : c.IsNearest v v :=
  ⟨hv, fun _ hi => absurd hi (lt_irrefl _), fun _ hi => absurd hi (lt_irrefl _)⟩

/-- Multipliers that are zero off the bounds, positive only at an upper and negative only at a lower
one. -/
structure IsNormal (c : Constraints Exact) (z y : Fin k → ℝ) : Prop where
  admits : c.Admits z
  upper : ∀ i, 0 < y i → c.upper i = .real (z i)
  lower : ∀ i, y i < 0 → c.lower i = .real (z i)

theorem IsNearest.isNormal {v z : Fin k → ℝ} (h : c.IsNearest v z) {ρ : ℝ} (hρ : 0 < ρ) :
    c.IsNormal z (ρ • (v - z)) := by
  refine ⟨h.admits, fun i hi => h.lowered i ?_, fun i hi => h.raised i ?_⟩
  · rw [Pi.smul_apply, smul_eq_mul, Pi.sub_apply] at hi
    linarith [pos_of_mul_pos_right hi hρ.le]
  · rw [Pi.smul_apply, smul_eq_mul, Pi.sub_apply] at hi
    linarith [neg_of_mul_neg_right hi hρ.le]

/-- With normal multipliers added, scaled by a positive number, the nearest values are those before. -/
theorem IsNormal.isNearest {z y : Fin k → ℝ} (h : c.IsNormal z y) {ρ : ℝ} (hρ : 0 < ρ) :
    c.IsNearest (z + ρ⁻¹ • y) z := by
  refine ⟨h.admits, fun i hi => h.upper i ?_, fun i hi => h.lower i ?_⟩
  · rw [Pi.add_apply, Pi.smul_apply, smul_eq_mul, lt_add_iff_pos_right] at hi
    exact pos_of_mul_pos_right hi (inv_pos.2 hρ).le
  · rw [Pi.add_apply, Pi.smul_apply, smul_eq_mul, add_lt_iff_neg_left] at hi
    exact neg_of_mul_neg_right hi (inv_pos.2 hρ).le

theorem ordered_ofProgram {p : Program Exact} (R : p.Reals) (hbounds : p.WellBounded)
    (hcrossed : (ofProgram p).crossed? = none) : (ofProgram p).Ordered (p.numRows + p.dimension) := by
  have hlower : (ofProgram p).lower = p.rowLower ++ p.lower := rfl
  have hupper : (ofProgram p).upper = p.rowUpper ++ p.upper := rfl
  refine ⟨R.bounds_size.1, R.bounds_size.2, fun i hi => ?_, crossed?_eq_none_iff.1 hcrossed⟩
  have hcount : p.rowLower.size = p.numRows := rfl
  rw [hlower, hupper, Vec.get_append, Vec.get_append, R.rowUpper_size, hcount]
  split
  · next hrow => exact hbounds.rows i hrow
  · next hvariable => exact hbounds.bounds (i - p.numRows) (by omega)

end Constraints

end Splitting

def Program.Reals.relaxed {p : Program Exact} (R : p.Reals) (a : ℝ) (x : Fin p.dimension → ℝ)
    (z : Fin (p.numRows + p.dimension) → ℝ) : Fin (p.numRows + p.dimension) → ℝ :=
  a • R.stacked *ᵥ x + (1 - a) • z

namespace Splitting

/-! ## Points -/

section generic

variable {α : Type} [Scalar α]

/-- The right-hand side of the system that an iteration solves. -/
def Point.rhs (s : System α) (settings : Settings α) (rho : α) (p : Point α) : Vec α :=
  settings.sigma • p.w - s.program.linear + s.transposed.mulVec (rho • p.z - p.y)

/-- The answer to the system of the next iteration. -/
def Loop.solved (s : System α) (settings : Settings α) (l : Loop α) : Vec α :=
  l.solver.solve (l.point.rhs s settings l.rho)

/-- A property of what every iteration of the solver on a program begins with. -/
def Solver.Throughout (kernels : Kernels α) (clock : ℕ → α) (solver : Solver α) (p : Program α)
    (P : Loop α → Prop) : Prop :=
  ∀ start, Loop.start? kernels.symmetric? (System.ofProgram p) solver.settings = some start →
    ∀ k < solver.settings.iterations, ∀ l,
      Loop.Leads kernels.symmetric? clock (System.ofProgram p) solver.settings start k l → P l

end generic

def Point.ofReal {n k : ℕ} (w : Fin n → ℝ) (z y dy : Fin k → ℝ) : Point Exact :=
  ⟨.ofReal w, .ofReal z, .ofReal y, .ofReal dy⟩

section real

variable {p : Program Exact} (R : p.Reals) {settings : Settings Exact}

theorem Point.start_ofReal (p : Program Exact) :
    Point.start (System.ofProgram p) =
      .ofReal (0 : Fin p.dimension → ℝ) (0 : Fin (p.numRows + p.dimension) → ℝ) 0 0 := by
  simp only [start, Vec.zero_eq_ofReal]
  rfl

theorem Point.rhs_ofReal {σ : ℝ} (hσ : settings.sigma = .real σ) (ρ : ℝ) (w : Fin p.dimension → ℝ)
    (z y dy : Fin (p.numRows + p.dimension) → ℝ) :
    (Point.ofReal w z y dy).rhs (System.ofProgram p) settings (.real ρ) =
      .ofReal (σ • w - R.f + R.stackedᵀ *ᵥ (ρ • z - y)) := by
  have hlinear : (System.ofProgram p).program.linear = .ofReal R.f := R.linear_eq
  rw [rhs, hlinear, R.transposed_ofProgram, hσ]
  simp only [ofReal]
  rw [Vec.ofReal_smul, Vec.ofReal_smul, Vec.ofReal_sub, Vec.ofReal_sub, Mat.mulVec_ofReal, Vec.ofReal_add]

theorem Point.rhs_start {σ ρ : ℝ} (hσ : settings.sigma = .real σ) :
    (Point.start (System.ofProgram p)).rhs (System.ofProgram p) settings (.real ρ) = .ofReal (-R.f) := by
  rw [start_ofReal, rhs_ofReal R hσ, smul_zero, smul_zero, sub_self, mulVec_zero, add_zero, zero_sub]

/-- An iteration over the reals: the new image is the nearest one within the bounds to the relaxed
image with the scaled multipliers, and the new multipliers are the scaled rest. -/
theorem Point.next_ofReal (hordered : (Constraints.ofProgram p).Ordered (p.numRows + p.dimension))
    {a ρ : ℝ} (ha : settings.alpha = .real a) (hρ : 0 < ρ) {solver : LinearSolver Exact}
    {w x : Fin p.dimension → ℝ} {z y dy : Fin (p.numRows + p.dimension) → ℝ}
    (hsolved : solver.solve ((ofReal w z y dy).rhs (System.ofProgram p) settings (.real ρ)) = .ofReal x) :
    ∃ z', (Constraints.ofProgram p).IsNearest (R.relaxed a x z + ρ⁻¹ • y) z' ∧
      (ofReal w z y dy).next (System.ofProgram p) settings solver (.real ρ) =
        ofReal (a • x + (1 - a) • w) z' (ρ • (R.relaxed a x z + ρ⁻¹ • y - z'))
          (ρ • (R.relaxed a x z - z')) := by
  obtain ⟨z', hz', hnearest⟩ := Constraints.exists_isNearest hordered (R.relaxed a x z + ρ⁻¹ • y)
  refine ⟨z', hnearest, ?_⟩
  have hrows : (System.ofProgram p).constraints.rows = Mat.ofReal R.stacked := R.rows_ofProgram
  have hrelaxed : Exact.real a • (Mat.ofReal R.stacked).mulVec (.ofReal x) +
      ((1.0 : Exact) - .real a) • Vec.ofReal z = .ofReal (R.relaxed a x z) := by
    rw [Mat.mulVec_ofReal, Exact.one_literal, Exact.real_sub, Vec.ofReal_smul, Vec.ofReal_smul, Vec.ofReal_add,
      Program.Reals.relaxed]
  have hw : Exact.real a • Vec.ofReal x + ((1.0 : Exact) - .real a) • Vec.ofReal w =
      .ofReal (a • x + (1 - a) • w) := by
    rw [Exact.one_literal, Exact.real_sub, Vec.ofReal_smul, Vec.ofReal_smul, Vec.ofReal_add]
  have hprojected : (Vec.ofReal (R.relaxed a x z) + (Vec.ofReal y).divBy (.real ρ)).within
      (System.ofProgram p).constraints.lower (System.ofProgram p).constraints.upper = .ofReal z' := by
    rw [Vec.ofReal_divBy hρ.ne', Vec.ofReal_add]
    exact hz'
  have hy : y + ρ • (R.relaxed a x z - z') = ρ • (R.relaxed a x z + ρ⁻¹ • y - z') := by
    rw [add_sub_right_comm, smul_add, smul_inv_smul₀ hρ.ne', add_comm y]
  unfold rhs at hsolved
  unfold next
  simp only [ofReal] at hsolved ⊢
  rw [hsolved, ha, hrows, hrelaxed, hw, hprojected, Vec.ofReal_sub, Vec.ofReal_smul, Vec.ofReal_add, hy]

theorem Point.residuals_of_eq {n k : ℕ} {s : System Exact} {H : Matrix (Fin n) (Fin n) ℝ} {f : Fin n → ℝ}
    {S : Matrix (Fin k) (Fin n) ℝ} (hquadratic : s.program.quadratic = Mat.ofReal H)
    (hlinear : s.program.linear = .ofReal f) (hrows : s.constraints.rows = Mat.ofReal S)
    (htransposed : s.transposed = Mat.ofReal Sᵀ) (w : Fin n → ℝ) (z y dy : Fin k → ℝ) :
    (Point.ofReal w z y dy).residuals s =
      ⟨.real ‖S *ᵥ w - z‖, .real ‖H *ᵥ w + f + Sᵀ *ᵥ y‖, .real (max ‖S *ᵥ w‖ ‖z‖),
        .real (max (max ‖H *ᵥ w‖ ‖Sᵀ *ᵥ y‖) ‖f‖)⟩ := by
  simp only [residuals, ofReal, hrows, hquadratic, hlinear, htransposed, Mat.mulVec_ofReal,
    Vec.ofReal_add, Vec.ofReal_sub, Vec.maxNorm_ofReal, Exact.larger_real]

theorem Point.residuals_ofReal (w : Fin p.dimension → ℝ) (z y dy : Fin (p.numRows + p.dimension) → ℝ) :
    (Point.ofReal w z y dy).residuals (System.ofProgram p) =
      ⟨.real ‖R.stacked *ᵥ w - z‖, .real ‖R.H *ᵥ w + R.f + R.stackedᵀ *ᵥ y‖,
        .real (max ‖R.stacked *ᵥ w‖ ‖z‖), .real (max (max ‖R.H *ᵥ w‖ ‖R.stackedᵀ *ᵥ y‖) ‖R.f‖)⟩ :=
  residuals_of_eq R.quadratic_eq R.linear_eq R.rows_ofProgram R.transposed_ofProgram w z y dy

def Point.IsReal (n k : ℕ) (pt : Point Exact) : Prop :=
  ∃ (w : Fin n → ℝ) (z y dy : Fin k → ℝ), pt = .ofReal w z y dy

/-- A real point of which the multipliers are normal to the bounds at the image. -/
def Point.IsNormal (p : Program Exact) (pt : Point Exact) : Prop :=
  ∃ (w : Fin p.dimension → ℝ) (z y dy : Fin (p.numRows + p.dimension) → ℝ),
    pt = .ofReal w z y dy ∧ (Constraints.ofProgram p).IsNormal z y

/-- What an iteration over the reals needs of the loop. -/
structure Loop.IsSound (p : Program Exact) (settings : Settings Exact) (l : Loop Exact) : Prop where
  rho : 0.0 < l.rho ∧ Scalar.isFinite l.rho = true
  solved : (l.solved (System.ofProgram p) settings).size = p.dimension ∧
    (l.solved (System.ofProgram p) settings).allFinite = true

variable {kernels : Kernels Exact} {clock : ℕ → Exact} {solver : Solver Exact} {start l : Loop Exact} {k : ℕ}

theorem Point.IsNormal.isReal {pt : Point Exact} (h : pt.IsNormal p) :
    pt.IsReal p.dimension (p.numRows + p.dimension) := by
  obtain ⟨w, z, y, dy, hpt, -⟩ := h
  exact ⟨w, z, y, dy, hpt⟩

theorem Loop.IsSound.isNormal (R : p.Reals) (hl : l.IsSound p settings)
    (hordered : (Constraints.ofProgram p).Ordered (p.numRows + p.dimension))
    (ha : Scalar.isFinite settings.alpha = true)
    (hreal : l.point.IsReal p.dimension (p.numRows + p.dimension)) :
    (l.moved (System.ofProgram p) settings).point.IsNormal p := by
  obtain ⟨w, z, y, dy, hpoint⟩ := hreal
  obtain ⟨a, ha⟩ := Exact.isFinite_iff.1 ha
  obtain ⟨ρ, hρ⟩ := Exact.isFinite_iff.1 hl.rho.2
  have hpos := hl.rho.1
  rw [hρ, Exact.zero_literal, Exact.real_lt_real] at hpos
  obtain ⟨x, hx⟩ := Vec.eq_ofReal hl.solved.1 hl.solved.2
  rw [Loop.solved, hpoint, hρ] at hx
  obtain ⟨z', hnearest, hnext⟩ := Point.next_ofReal R hordered ha hpos hx
  have hmoved : (l.moved (System.ofProgram p) settings).point =
      l.point.next (System.ofProgram p) settings l.solver l.rho := rfl
  rw [hmoved, hpoint, hρ, hnext]
  exact ⟨_, _, _, _, rfl, hnearest.isNormal hpos⟩

theorem Loop.start?_point {factor : Mat Exact → Option (LinearSolver Exact)} {s : System Exact}
    (h : Loop.start? factor s settings = some start) : start.point = Point.start s := by
  obtain ⟨solver, -, rfl⟩ := Option.map_eq_some_iff.1 h
  rfl

/-- The first iteration: the multipliers are what the image is moved by, and so is their change. -/
theorem Loop.moved_start (R : p.Reals)
    (hordered : (Constraints.ofProgram p).Ordered (p.numRows + p.dimension)) {a ρ : ℝ}
    (ha : settings.alpha = .real a) (hρ : 0 < ρ) (hpoint : l.point = Point.start (System.ofProgram p))
    (hrho : l.rho = .real ρ) {x : Fin p.dimension → ℝ}
    (hsolved : l.solved (System.ofProgram p) settings = .ofReal x) :
    ∃ z, (Constraints.ofProgram p).IsNearest (a • R.stacked *ᵥ x) z ∧
      (l.moved (System.ofProgram p) settings).point =
        .ofReal (a • x) z (ρ • (a • R.stacked *ᵥ x - z)) (ρ • (a • R.stacked *ᵥ x - z)) := by
  rw [Loop.solved, hpoint, hrho, Point.start_ofReal] at hsolved
  obtain ⟨z, hz, hnext⟩ := Point.next_ofReal R hordered ha hρ hsolved
  have hmoved : (l.moved (System.ofProgram p) settings).point =
      l.point.next (System.ofProgram p) settings l.solver l.rho := rfl
  rw [Program.Reals.relaxed, smul_zero, smul_zero, add_zero, add_zero] at hz
  rw [hpoint, hrho, Point.start_ofReal, hnext, Program.Reals.relaxed] at hmoved
  simp only [smul_zero, add_zero] at hmoved
  exact ⟨z, hz, hmoved⟩

theorem Solver.solve_of_first_check (kernels : Kernels Exact) (clock : ℕ → Exact) (solver : Solver Exact)
    (R : p.Reals) (hdimension : 0 < p.dimension)
    (hordered : (Constraints.ofProgram p).Ordered (p.numRows + p.dimension))
    (hstart : Loop.start? kernels.symmetric? (System.ofProgram p) solver.settings = some start)
    (hiterations : 0 < solver.settings.iterations) {ending : Ending}
    (hcheck : (start.moved (System.ofProgram p) solver.settings).check kernels.symmetric?
      (System.ofProgram p) solver.settings (clock 0) = .error (ending, l)) :
    solver.iterate? kernels clock (System.ofProgram p) = some ⟨ending, 0, l⟩ ∧
      solver.solve kernels clock p =
        Outcome.answer kernels.general (System.ofProgram p) solver.settings ⟨ending, 0, l⟩ := by
  have hrun : solver.iterate? kernels clock (System.ofProgram p) = some ⟨ending, 0, l⟩ := by
    obtain ⟨n, hn⟩ := Nat.exists_eq_succ_of_ne_zero hiterations.ne'
    have hchecked : solver.settings.isChecked 0 = true := by simp [Settings.isChecked]
    rw [Solver.iterate?, hstart, hn]
    exact congrArg some (Loop.run_of_check hchecked hcheck)
  have hcrossed : (System.ofProgram p).constraints.crossed? = none := hordered.crossed?_eq_none rfl
  refine ⟨hrun, ?_⟩
  unfold Solver.solve
  rw [R.check]
  dsimp only
  rw [if_neg hdimension.ne', hcrossed, hrun]

theorem Loop.Leads.isReal (R : p.Reals)
    (h : Loop.Leads kernels.symmetric? clock (System.ofProgram p) solver.settings start k l)
    (hstart : Loop.start? kernels.symmetric? (System.ofProgram p) solver.settings = some start)
    (hsound : solver.Throughout kernels clock p (Loop.IsSound p solver.settings))
    (hordered : (Constraints.ofProgram p).Ordered (p.numRows + p.dimension))
    (ha : Scalar.isFinite solver.settings.alpha = true) (hk : k ≤ solver.settings.iterations) :
    l.point.IsReal p.dimension (p.numRows + p.dimension) := by
  induction h with
  | refl =>
    rw [Loop.start?_point hstart, Point.start_ofReal]
    exact ⟨_, _, _, _, rfl⟩
  | @unchecked k l h hskip ih =>
    have hl := hsound start hstart k (by omega) l h
    exact (hl.isNormal R hordered ha (ih (by omega))).isReal
  | @checked k l next h hchecked hcheck ih =>
    have hl := hsound start hstart k (by omega) l h
    rw [Loop.check_point hcheck]
    exact (hl.isNormal R hordered ha (ih (by omega))).isReal

theorem Solver.iterate?_isReal (R : p.Reals) {o : Outcome Exact}
    (ho : solver.iterate? kernels clock (System.ofProgram p) = some o)
    (hsound : solver.Throughout kernels clock p (Loop.IsSound p solver.settings))
    (hordered : (Constraints.ofProgram p).Ordered (p.numRows + p.dimension))
    (ha : Scalar.isFinite solver.settings.alpha = true) :
    o.loop.point.IsReal p.dimension (p.numRows + p.dimension) := by
  obtain ⟨start, hstart, hends⟩ := iterate?_ends ho
  cases hends with
  | exhausted h => exact h.isReal R hstart hsound hordered ha le_rfl
  | @stopped k l l' ending h hlt hchecked hcheck =>
    have hreal := h.isReal R hstart hsound hordered ha hlt.le
    have hmoved := ((hsound start hstart k hlt l h).isNormal R hordered ha hreal).isReal
    rwa [← (Loop.check_error_kept hcheck).1] at hmoved

end real

end Splitting

end BinarySplitting
