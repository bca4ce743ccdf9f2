import BinarySplitting.Proofs.Splitting.Optimality

/-!
# What a refined point is worth

The refinement solves the optimality conditions with the active constraints as equations: a
regularised system, and corrections for what its solution misses. The answer is accepted when the
multipliers have the right signs, no bound is passed and the gradient vanishes, all up to the
tolerance and whatever the routines answered (`ActiveSet.Accepts`). That the active constraints hold
as equations is not tested. When the routines are exact, a correction leaves of the conditions what
the regularisation adds to it (`exists_correct`), so an active constraint is off its bound by the
regularisation times the last change of its multiplier (`Solver.solve_polished`): a small
regularisation or many corrections bring it near the bound, the test does not. With a regularisation
of one a point at seven eighths is accepted for a minimiser at one (`Solver.solve_polished_slide`).
-/

namespace BinarySplitting

open Matrix Splitting

/-- The solver answers finite right-hand sides with finite solutions of a system. -/
def LinearSolver.IsExact (solver : LinearSolver Exact) (m : Mat Exact) : Prop :=
  ∀ r : Vec Exact, r.size = m.rows → r.allFinite = true →
    (solver.solve r).size = m.cols ∧ (solver.solve r).allFinite = true ∧ m.mulVec (solver.solve r) = r

theorem LinearSolver.isExact_ofReal_iff {N : ℕ} {solver : LinearSolver Exact} {K : Matrix (Fin N) (Fin N) ℝ} :
    solver.IsExact (Mat.ofReal K) ↔
      ∀ r : Fin N → ℝ, ∃ x : Fin N → ℝ, solver.solve (.ofReal r) = .ofReal x ∧ K *ᵥ x = r := by
  constructor
  · intro h r
    obtain ⟨hsize, hfinite, hsolves⟩ := h (.ofReal r) (Vec.size_ofReal r) (Vec.allFinite_ofReal r)
    obtain ⟨x, hx⟩ := Vec.eq_ofReal (n := N) hsize hfinite
    rw [hx, Mat.mulVec_ofReal] at hsolves
    exact ⟨x, hx, Vec.ofReal_inj.1 hsolves⟩
  · intro h r hsize hfinite
    obtain ⟨r, rfl⟩ := Vec.eq_ofReal (n := N) hsize hfinite
    obtain ⟨x, hx, hsolves⟩ := h r
    rw [hx, Mat.mulVec_ofReal, hsolves]
    exact ⟨Vec.size_ofReal x, Vec.allFinite_ofReal x, rfl⟩

theorem LinearSolver.isExact_single {solver : LinearSolver Exact} {a : ℝ} (ha : a ≠ 0)
    (hdivides : ∀ b, solver.solve (.single b) = .single (b / a)) : solver.IsExact (.single a) := by
  refine (LinearSolver.isExact_ofReal_iff (K := Matrix.of fun _ _ : Fin 1 => a)).2 fun r => ?_
  refine ⟨fun _ => r 0 / a, ?_, funext fun i => ?_⟩
  · rw [← Vec.single_eq_ofReal r, hdivides]
    exact Vec.single_eq_ofReal fun _ => r 0 / a
  · obtain rfl : i = 0 := Subsingleton.elim _ _
    change ∑ j : Fin 1, a * (r 0 / a) = r 0
    rw [Fin.sum_univ_one, mul_div_cancel₀ _ ha]

/-! ## Corrections -/

namespace Splitting

section corrections

variable {α : Type} [Scalar α] {solver : LinearSolver α} {m : Mat α} {rhs : Vec α}

/-- The last correction made to a solution: the solution itself if there was none. -/
def lastCorrection (solver : LinearSolver α) (m : Mat α) (rhs : Vec α) : ℕ → Vec α
  | 0 => solver.solve rhs
  | k + 1 => solver.solve (rhs - m.mulVec (correct solver m rhs k (solver.solve rhs)))

/-- By what the last correction changes the solution of the optimality conditions. -/
def ActiveSet.lastChange (general : Mat α → LinearSolver α) (a : ActiveSet) (s : System α)
    (settings : Settings α) : Vec α :=
  lastCorrection (general (a.regularized s settings.polishDelta)) (a.matrix s) (a.rhs s) settings.polishSteps.toNat

theorem correct_succ (k : ℕ) (v : Vec α) : correct solver m rhs (k + 1) v =
    correct solver m rhs k v + solver.solve (rhs - m.mulVec (correct solver m rhs k v)) := by
  induction k generalizing v with
  | zero => rfl
  | succ k ih => exact ih (v + solver.solve (rhs - m.mulVec v))

end corrections

/-- With exact solutions of another system, what is missed in the end is what the two systems differ
by at the last change. -/
theorem exists_correct {N : ℕ} {solver : LinearSolver Exact} {K : Matrix (Fin N) (Fin N) ℝ}
    (h : solver.IsExact (Mat.ofReal K)) (M : Matrix (Fin N) (Fin N) ℝ) (b : Fin N → ℝ) (k : ℕ) :
    ∃ v d : Fin N → ℝ, correct solver (Mat.ofReal M) (.ofReal b) k (solver.solve (.ofReal b)) = .ofReal v ∧
      lastCorrection solver (Mat.ofReal M) (.ofReal b) k = .ofReal d ∧ b - M *ᵥ v = (K - M) *ᵥ d := by
  rw [LinearSolver.isExact_ofReal_iff] at h
  induction k with
  | zero =>
    obtain ⟨x, hx, hsolves⟩ := h b
    exact ⟨x, x, hx, hx, by rw [sub_mulVec, hsolves]⟩
  | succ k ih =>
    obtain ⟨v, -, hv, -, -⟩ := ih
    obtain ⟨d, hd, hsolves⟩ := h (b - M *ᵥ v)
    rw [correct_succ, lastCorrection, hv, Mat.mulVec_ofReal, Vec.ofReal_sub, hd, Vec.ofReal_add]
    refine ⟨v + d, d, rfl, rfl, ?_⟩
    rw [mulVec_add, sub_mulVec, hsolves]
    abel

end Splitting

/-! ## Active constraints over the reals -/

namespace Program.Reals

variable {p : Program Exact} (R : p.Reals) (a : ActiveSet)

/-- The row of a constraint, zero if there is none. -/
def row (i : ℕ) : Fin p.dimension → ℝ := fun j =>
  if h : i < p.numRows + p.dimension then R.stacked ⟨i, h⟩ j else 0

def active : Matrix (Fin a.all.length) (Fin p.dimension) ℝ := Matrix.of fun k => R.row a.all[k]

theorem get_row {i : ℕ} (hi : i < p.numRows + p.dimension) (j : Fin p.dimension) :
    (Constraints.ofProgram p).rows i j = .real (R.row i j) := by
  rw [R.rows_ofProgram, Mat.get_ofReal _ hi j.isLt, row, dif_pos hi]

variable {a}

theorem get_active (ha : ∀ i ∈ a.all, i < p.numRows + p.dimension) (k : Fin a.all.length) (j : Fin p.dimension) :
    (System.ofProgram p).constraints.rows (a.all.getD k 0) j = .real (R.active a k j) := by
  have hentry : a.all.getD k 0 = a.all[(k : ℕ)] := by simp [List.getD]
  rw [hentry]
  exact R.get_row (ha _ (List.getElem_mem k.isLt)) j

theorem matrix_active (ha : ∀ i ∈ a.all, i < p.numRows + p.dimension) :
    a.matrix (System.ofProgram p) = Mat.ofReal (blockMatrix R.H (R.active a)ᵀ (R.active a) 0) := by
  have hquadratic : (System.ofProgram p).program.quadratic = Mat.ofReal R.H := R.quadratic_eq
  have hdimension : (System.ofProgram p).program.dimension = p.dimension := rfl
  dsimp only [ActiveSet.matrix]
  rw [hquadratic, hdimension]
  refine Mat.ofFn_eq_blocks R.H (R.active a)ᵀ (R.active a) 0 ?_ ?_ ?_ ?_
  · intro i j
    rw [if_pos i.isLt, if_pos j.isLt, Mat.get_ofReal_fin]
  · intro i k
    rw [if_pos i.isLt, if_neg (by omega), Nat.add_sub_cancel_left, R.get_active ha]
    rfl
  · intro k j
    rw [if_neg (by omega), if_pos j.isLt, Nat.add_sub_cancel_left, R.get_active ha]
  · intro k k'
    rw [if_neg (by omega), if_neg (by omega), Exact.zero_literal]
    rfl

theorem regularized_active (ha : ∀ i ∈ a.all, i < p.numRows + p.dimension) (δ : ℝ) :
    a.regularized (System.ofProgram p) (.real δ) =
      Mat.ofReal (blockMatrix (R.H + δ • 1) (R.active a)ᵀ (R.active a) (-(δ • 1))) := by
  have hdimension : (System.ofProgram p).program.dimension = p.dimension := rfl
  dsimp only [ActiveSet.regularized]
  rw [R.matrix_active ha, hdimension, Mat.rows_ofReal, Mat.cols_ofReal]
  refine Mat.ofFn_eq_blocks (R.H + δ • 1) (R.active a)ᵀ (R.active a) (-(δ • 1)) ?_ ?_ ?_ ?_
  · intro i j
    rw [Mat.get_topLeft, if_pos i.isLt]
    by_cases hij : i = j
    · simp [hij]
    · simp [hij, Fin.val_ne_of_ne hij]
  · intro i k
    rw [Mat.get_topRight, if_neg (by omega)]
  · intro k j
    rw [Mat.get_bottomLeft, if_neg (by omega)]
  · intro k k'
    rw [Mat.get_bottomRight]
    by_cases hk : k = k'
    · rw [hk, if_pos rfl, if_neg (by omega)]
      simp
    · simp [hk, Fin.val_ne_of_ne hk]

theorem rhs_active {b : Fin a.all.length → ℝ}
    (hb : ∀ k : Fin a.all.length, a.bound (Constraints.ofProgram p) k = .real (b k)) :
    a.rhs (System.ofProgram p) = .ofReal (Fin.append (-R.f) b) := by
  have hlinear : (System.ofProgram p).program.linear = .ofReal R.f := R.linear_eq
  have hbounds : Vec.ofFn a.all.length (a.bound (System.ofProgram p).constraints) = .ofReal b :=
    Vec.ofFn_eq_ofReal hb
  rw [ActiveSet.rhs, hlinear, hbounds, Vec.ofReal_neg, Vec.ofReal_append]

theorem slice_rhs : (a.rhs (System.ofProgram p)).slice 0 p.dimension = .ofReal (-R.f) := by
  have hlinear : (System.ofProgram p).program.linear = .ofReal R.f := R.linear_eq
  unfold ActiveSet.rhs
  rw [hlinear, Vec.ofReal_neg]
  refine Vec.ofFn_eq_ofReal fun i => ?_
  rw [Nat.zero_add, Vec.get_append, Vec.size_ofReal, if_pos i.isLt, Vec.get_ofReal_fin]

end Program.Reals

/-! ## Acceptance -/

namespace Splitting

open Program

/-- The conditions that a refined point is tested for: with a tolerance `e` that is scaled by the
point's size for the bounds and the gradient. -/
structure ActiveSet.Accepts {p : Program Exact} (R : p.Reals) (a : ActiveSet) (e : Exact)
    (w : Fin p.dimension → ℝ) (μ : Fin a.all.length → ℝ) : Prop where
  lower : ∀ k : Fin a.all.length, k < a.lower.length → .real (μ k) ≤ e
  upper : ∀ k : Fin a.all.length, a.lower.length ≤ k → -e ≤ .real (μ k)
  violation : p.maxViolation (.ofReal w) ≤ e * .real (1 + ‖w‖ + ‖R.f‖)
  gradient : .real ‖R.H *ᵥ w + R.f + (R.active a)ᵀ *ᵥ μ‖ ≤ e * .real (1 + ‖w‖ + ‖R.f‖)

variable {p : Program Exact} (R : p.Reals) {a : ActiveSet} {general : Mat Exact → LinearSolver Exact}
  {settings : Settings Exact} {refined : Polished Exact}

theorem ActiveSet.signsFit_iff {e : Exact} {μ : Fin a.all.length → ℝ} :
    a.signsFit e (.ofReal μ) = true ↔ ∀ k : Fin a.all.length,
      if k < a.lower.length then ¬ e < .real (μ k) else ¬ .real (μ k) < -e := by
  unfold signsFit
  rw [List.all_eq_true]
  constructor
  · intro h k
    have hk := h k (List.mem_range.2 k.isLt)
    rw [Vec.get_ofReal_fin] at hk
    split at hk
    · next hlower => simpa [hlower] using hk
    · next hupper => simpa [hupper] using hk
  · intro h k hk
    have hfit := h ⟨k, List.mem_range.1 hk⟩
    rw [Vec.get_ofReal μ (List.mem_range.1 hk)]
    split at hfit
    · next hlower => simpa [hlower] using hfit
    · next hupper => simpa [hupper] using hfit

theorem size_of_maxNorm_le {n r k : ℕ} {M : Matrix (Fin r) (Fin k) ℝ} {f : Fin n → ℝ} {v : Vec Exact} {c : Exact}
    (hn : 0 < n) (hr : n ≤ r) (h : (((Mat.ofReal M).mulVec v).slice 0 n - .ofReal f).maxNorm ≤ c) : v.size = k := by
  have hfirst := Vec.first_defined_of_maxNorm_le (by simpa using hn) h
  have hentry : (((Mat.ofReal M).mulVec v).slice 0 n - .ofReal f) 0 =
      (Mat.ofReal M).mulVec v 0 + -Vec.ofReal f 0 := by
    refine (Vec.get_zip _ (by simpa using hn)).trans ?_
    rw [Vec.get_slice hn]
    rfl
  rw [hentry] at hfirst
  exact (Mat.defined_of_mulVec (hn.trans_le hr) (Exact.defined_of_add hfirst).1).1

theorem ActiveSet.accepts_iff {e : Exact} {w : Fin p.dimension → ℝ} {μ : Fin a.all.length → ℝ} :
    a.Accepts R e w μ ↔ a.signsFit e (.ofReal μ) = true ∧
      p.maxViolation (.ofReal w) ≤ e * .real (1 + ‖w‖ + ‖R.f‖) ∧
        .real ‖R.H *ᵥ w + R.f + (R.active a)ᵀ *ᵥ μ‖ ≤ e * .real (1 + ‖w‖ + ‖R.f‖) := by
  rw [signsFit_iff]
  constructor
  · intro h
    refine ⟨fun k => ?_, h.violation, h.gradient⟩
    split
    · next hlower => exact fun hlt => OrderedScalar.not_le_of_lt hlt (h.lower k hlower)
    · next hupper => exact fun hlt => OrderedScalar.not_le_of_lt hlt (h.upper k (Nat.not_lt.1 hupper))
  · rintro ⟨hsigns, hviolation, hgradient⟩
    have hdefined : e ≠ .undefined :=
      (Exact.defined_of_mul (Exact.defined_iff.1 (OrderedScalar.refl_of_le _ _ hgradient).2)).1
    refine ⟨fun k hk => ?_, fun k hk => ?_, hviolation, hgradient⟩
    · have hsign := hsigns k
      rw [if_pos hk] at hsign
      exact Exact.le_of_not_lt nofun hdefined hsign
    · have hsign := hsigns k
      rw [if_neg (Nat.not_lt.2 hk)] at hsign
      exact Exact.le_of_not_lt (Exact.neg_defined_iff.2 hdefined) nofun hsign

theorem ActiveSet.polish?_eq_some_iff (ha : ∀ i ∈ a.all, i < p.numRows + p.dimension)
    {w : Fin p.dimension → ℝ} {μ : Fin a.all.length → ℝ}
    (hsolution : a.solve general (System.ofProgram p) settings = .ofReal (Fin.append w μ)) :
    a.polish? general (System.ofProgram p) settings = some refined ↔
      a.Accepts R settings.polishTolerance w μ ∧ refined = ⟨.ofReal w, .ofReal μ⟩ := by
  have hdimension : (System.ofProgram p).program.dimension = p.dimension := rfl
  have hprogram : (System.ofProgram p).program = p := rfl
  have hscale : 1.0 + (Vec.ofReal w).maxNorm + (Vec.ofReal R.f).maxNorm = .real (1 + ‖w‖ + ‖R.f‖) := by
    rw [Exact.one_literal, Vec.maxNorm_ofReal, Vec.maxNorm_ofReal, Exact.real_add, Exact.real_add]
  unfold polish?
  dsimp only
  rw [hdimension, hprogram, R.linear_eq, R.matrix_active ha, R.slice_rhs, hsolution, slice_append_left,
    slice_append_right, hscale, Mat.mulVec_ofReal, blockMatrix_mulVec_append, slice_append_left, Vec.ofReal_sub,
    Vec.maxNorm_ofReal, sub_neg_eq_add, add_right_comm (R.H *ᵥ w), Vec.allFinite_ofReal, Bool.true_and, accepts_iff,
    eq_comm (a := refined)]
  simp only [Bool.and_eq_true, decide_eq_true_eq, Option.ite_none_right_eq_some, Option.some.injEq, and_assoc]

theorem ActiveSet.polish?_some (hdimension : 0 < p.dimension) (ha : ∀ i ∈ a.all, i < p.numRows + p.dimension)
    (h : a.polish? general (System.ofProgram p) settings = some refined) :
    ∃ (w : Fin p.dimension → ℝ) (μ : Fin a.all.length → ℝ), refined = ⟨.ofReal w, .ofReal μ⟩ ∧
      a.solve general (System.ofProgram p) settings = .ofReal (Fin.append w μ) ∧
      a.Accepts R settings.polishTolerance w μ := by
  have hreal : ∃ (w : Fin p.dimension → ℝ) (μ : Fin a.all.length → ℝ),
      a.solve general (System.ofProgram p) settings = .ofReal (Fin.append w μ) := by
    have hsize : (System.ofProgram p).program.dimension = p.dimension := rfl
    unfold polish? at h
    dsimp only at h
    rw [hsize, R.matrix_active ha, R.slice_rhs] at h
    split at h
    · next hfits =>
      rw [Bool.and_eq_true, Bool.and_eq_true, Bool.and_eq_true, decide_eq_true_eq, decide_eq_true_eq] at hfits
      obtain ⟨⟨⟨hfinite, -⟩, -⟩, hgradient⟩ := hfits
      obtain ⟨f, hf⟩ := Vec.eq_ofReal (size_of_maxNorm_le hdimension (by omega) hgradient) hfinite
      exact ⟨_, _, hf.trans (congrArg _ (Fin.append_castAdd_natAdd (f := f)).symm)⟩
    · cases h
  obtain ⟨w, μ, hsolution⟩ := hreal
  obtain ⟨haccepts, hrefined⟩ := (polish?_eq_some_iff R ha hsolution).1 h
  exact ⟨w, μ, hrefined, hsolution, haccepts⟩

/-! ## How far the active constraints are off their bounds -/

/-- With exact routines an active constraint is off its bound by the regularisation times the last
change of its multiplier. -/
theorem ActiveSet.exists_change (ha : ∀ i ∈ a.all, i < p.numRows + p.dimension) {b : Fin a.all.length → ℝ}
    (hb : ∀ k : Fin a.all.length, a.bound (Constraints.ofProgram p) k = .real (b k)) {δ : ℝ}
    (hδ : settings.polishDelta = .real δ)
    (hexact : (general (a.regularized (System.ofProgram p) settings.polishDelta)).IsExact
      (a.regularized (System.ofProgram p) settings.polishDelta))
    {w : Fin p.dimension → ℝ} {μ : Fin a.all.length → ℝ}
    (hsolution : a.solve general (System.ofProgram p) settings = .ofReal (Fin.append w μ)) :
    ∃ (dw : Fin p.dimension → ℝ) (dμ : Fin a.all.length → ℝ),
      a.lastChange general (System.ofProgram p) settings = .ofReal (Fin.append dw dμ) ∧
      ∀ k, (R.active a *ᵥ w) k = b k + δ * dμ k := by
  rw [hδ] at hexact
  rw [solve, hδ] at hsolution
  rw [lastChange, hδ]
  generalize general (a.regularized (System.ofProgram p) (.real δ)) = solver at hexact hsolution ⊢
  rw [R.regularized_active ha] at hexact
  rw [R.rhs_active hb, R.matrix_active ha] at hsolution ⊢
  obtain ⟨v, d, hv, hd, hmiss⟩ := exists_correct hexact (blockMatrix R.H (R.active a)ᵀ (R.active a) 0)
    (Fin.append (-R.f) b) settings.polishSteps.toNat
  obtain rfl : v = Fin.append w μ := Vec.ofReal_inj.1 (hv.symm.trans hsolution)
  obtain ⟨dw, dμ, rfl⟩ : ∃ (dw : Fin p.dimension → ℝ) (dμ : Fin a.all.length → ℝ), d = Fin.append dw dμ :=
    ⟨_, _, (Fin.append_castAdd_natAdd (f := d)).symm⟩
  refine ⟨dw, dμ, hd, fun k => ?_⟩
  rw [sub_mulVec, blockMatrix_mulVec_append, blockMatrix_mulVec_append, blockMatrix_mulVec_append] at hmiss
  have hrow := congrFun hmiss (Fin.natAdd p.dimension k)
  simp only [Pi.sub_apply, Fin.append_right, Pi.add_apply, zero_mulVec, Pi.zero_apply, neg_mulVec, Pi.neg_apply,
    smul_mulVec, one_mulVec, Pi.smul_apply, smul_eq_mul] at hrow
  linarith

theorem Point.mem_activeSet_lower {c : Constraints Exact} {pt : Point Exact} {i : ℕ}
    (h : i ∈ (pt.activeSet c).lower) : i < c.size ∧ pt.z i - c.lower i < -pt.y i := by
  obtain ⟨hi, hlower⟩ := List.mem_filter.1 h
  exact ⟨List.mem_range.1 hi, of_decide_eq_true hlower⟩

theorem Point.mem_activeSet_upper {c : Constraints Exact} {pt : Point Exact} {i : ℕ}
    (h : i ∈ (pt.activeSet c).upper) : i < c.size ∧ c.upper i - pt.z i < pt.y i := by
  obtain ⟨hi, hupper⟩ := List.mem_filter.1 h
  exact ⟨List.mem_range.1 hi, of_decide_eq_true (Bool.and_eq_true_iff.1 hupper).2⟩

theorem Point.lt_size_of_mem {c : Constraints Exact} {pt : Point Exact} {i : ℕ} (h : i ∈ (pt.activeSet c).all) :
    i < c.size := by
  rcases List.mem_append.1 h with hlower | hupper
  · exact (mem_activeSet_lower hlower).1
  · exact (mem_activeSet_upper hupper).1

theorem ActiveSet.bound_cases (a : ActiveSet) (c : Constraints Exact) (k : Fin a.all.length) :
    (∃ i ∈ a.lower, a.bound c k = c.lower i) ∨ ∃ i ∈ a.upper, a.bound c k = c.upper i := by
  have hentry : a.all.getD k 0 = a.all[(k : ℕ)] := by simp [List.getD]
  unfold bound
  dsimp only
  rw [hentry]
  split
  · next hlower =>
    have hfirst : a.all[(k : ℕ)] = a.lower[(k : ℕ)] := List.getElem_append_left hlower
    exact Or.inl ⟨_, List.getElem_mem hlower, congrArg c.lower.get hfirst⟩
  · next hupper =>
    have hlength : a.all.length = a.lower.length + a.upper.length := List.length_append
    have hlast : a.all[(k : ℕ)] = a.upper[(k : ℕ) - a.lower.length] :=
      List.getElem_append_right (Nat.not_lt.1 hupper)
    exact Or.inr ⟨_, List.getElem_mem (by omega), congrArg c.upper.get hlast⟩

theorem Point.exists_bound {c : Constraints Exact} {n N : ℕ} (hordered : c.Ordered N) (hsize : c.size = N)
    {pt : Point Exact} (hpt : pt.IsReal n N) :
    ∃ b : Fin (pt.activeSet c).all.length → ℝ, ∀ k : Fin _, (pt.activeSet c).bound c k = .real (b k) := by
  suffices hreal : ∀ k : Fin (pt.activeSet c).all.length, ∃ r : ℝ, (pt.activeSet c).bound c k = .real r by
    choose b hb using hreal
    exact ⟨b, hb⟩
  obtain ⟨w, z, y, dy, rfl⟩ := hpt
  intro k
  have hz {i : ℕ} (hi : i < N) : (Point.ofReal w z y dy).z i = .real (z ⟨i, hi⟩) := Vec.get_ofReal z hi
  obtain ⟨i, hmem, hbound⟩ | ⟨i, hmem, hbound⟩ := (activeSet c (.ofReal w z y dy)).bound_cases c k
  · obtain ⟨hi, hnear⟩ := mem_activeSet_lower hmem
    rw [hsize] at hi
    rw [hz hi] at hnear
    rw [hbound]
    exact Exact.exists_real_of_sub_lt hnear (hordered.bounded i hi).1
  · obtain ⟨hi, hnear⟩ := mem_activeSet_upper hmem
    rw [hsize] at hi
    rw [hz hi] at hnear
    rw [hbound]
    exact Exact.exists_real_of_lt_sub hnear (hordered.bounded i hi).2

/-- The solution is the refined point for the active constraints of the last point of the iteration:
it passes the tests, and with exact routines each active constraint is off its bound by the
regularisation times the last change of its multiplier. -/
structure Solver.Refines (kernels : Kernels Exact) (clock : ℕ → Exact) (solver : Solver Exact) (R : p.Reals)
    (δ : ℝ) (a : ActiveSet) (w : Fin p.dimension → ℝ) (μ : Fin a.all.length → ℝ) : Prop where
  active : ∃ o, solver.iterate? kernels clock (System.ofProgram p) = some o ∧
    a = o.loop.point.activeSet (Constraints.ofProgram p)
  result : (solver.solve kernels clock p).result = .ok ⟨.ofReal w, p.objective (.ofReal w)⟩
  accepts : a.Accepts R solver.settings.polishTolerance w μ
  rows : (kernels.general (a.regularized (System.ofProgram p) solver.settings.polishDelta)).IsExact
      (a.regularized (System.ofProgram p) solver.settings.polishDelta) →
    ∃ (dw : Fin p.dimension → ℝ) (dμ : Fin a.all.length → ℝ),
      a.lastChange kernels.general (System.ofProgram p) solver.settings = .ofReal (Fin.append dw dμ) ∧
      ∀ k : Fin a.all.length,
        .real ((R.active a *ᵥ w) k) = a.bound (Constraints.ofProgram p) k + .real (δ * dμ k)

/-- What a refined solution is worth. -/
theorem Solver.solve_polished {kernels : Kernels Exact} {clock : ℕ → Exact} {solver : Solver Exact}
    (R : p.Reals) (hbounds : p.WellBounded) (halpha : Scalar.isFinite solver.settings.alpha = true)
    (hsound : solver.Throughout kernels clock p (Loop.IsSound p solver.settings)) {δ : ℝ}
    (hδ : solver.settings.polishDelta = .real δ)
    (hpolished : (solver.solve kernels clock p).info.polished = true) :
    ∃ a w μ, solver.Refines kernels clock R δ a w μ := by
  obtain ⟨f, -, hsolve⟩ | ⟨-, -, hsolve⟩ | ⟨-, -, i, -, hsolve⟩ |
    ⟨-, hdimension, hcrossed, ⟨-, hsolve⟩ | ⟨o, ho, hsolve⟩⟩ := solver.solve_cases kernels clock p
  · rw [hsolve] at hpolished
    cases hpolished
  · rw [hsolve] at hpolished
    cases hpolished
  · rw [hsolve] at hpolished
    cases hpolished
  · rw [hsolve] at hpolished
    cases hpolished
  · rw [hsolve] at hpolished
    have hordered := Constraints.ordered_ofProgram R hbounds hcrossed
    have hreal := iterate?_isReal R ho hsound hordered halpha
    obtain ⟨refined, hrefined, hresult⟩ := Outcome.answer_polished hpolished
    have hwithin : ∀ i ∈ (o.loop.point.activeSet (Constraints.ofProgram p)).all, i < p.numRows + p.dimension :=
      fun i hi => Point.lt_size_of_mem hi
    obtain ⟨w, μ, rfl, hsolution, haccepts⟩ := ActiveSet.polish?_some R hdimension hwithin hrefined
    refine ⟨_, w, μ, ⟨o, ho, rfl⟩, hsolve ▸ hresult, haccepts, fun hexact => ?_⟩
    obtain ⟨b, hb⟩ := Point.exists_bound hordered rfl hreal
    obtain ⟨dw, dμ, hchange, hrows⟩ := ActiveSet.exists_change R hwithin hb hδ hexact hsolution
    refine ⟨dw, dμ, hchange, fun k => ?_⟩
    rw [hb, Exact.real_add, hrows]

/-! ## The unit interval, with the upper bound active -/

/-- The upper bound of the variable is active. -/
def atTop : ActiveSet := ⟨[], [1]⟩

theorem of_one_mulVec (f : Fin 1 → ℝ) : (Matrix.of fun _ _ : Fin 1 => (1 : ℝ)) *ᵥ f = f := by
  funext i
  simp [mulVec, dotProduct, Subsingleton.elim i 0]

section top

variable {h f ρ x w μ e : ℝ}

theorem atTop_within (h f : ℝ) : ∀ i ∈ atTop.all,
    i < (Program.line h f 1 0 (.real 1)).numRows + (Program.line h f 1 0 (.real 1)).dimension := by
  intro i hi
  obtain rfl : i = 1 := List.mem_singleton.1 hi
  exact Nat.one_lt_two

theorem activeSet_top (h f : ℝ) (hρ : 0 < ρ) (habove : 1 < x) :
    (topPoint ρ x).activeSet (Constraints.ofProgram (.line h f 1 0 (.real 1))) = atTop := by
  have hz : (topPoint ρ x).z 0 = .real x ∧ (topPoint ρ x).z 1 = .real 1 :=
    ⟨Vec.get_ofReal _ Nat.two_pos, Vec.get_ofReal _ Nat.one_lt_two⟩
  have hy : (topPoint ρ x).y 0 = .real 0 ∧ (topPoint ρ x).y 1 = .real (ρ * (x - 1)) :=
    ⟨Vec.get_ofReal _ Nat.two_pos, Vec.get_ofReal _ Nat.one_lt_two⟩
  have hchange : 0 < ρ * (x - 1) := mul_pos hρ (sub_pos.2 habove)
  have hsize : (Constraints.ofProgram (.line h f 1 0 (.real 1))).size = 2 := rfl
  have hlower : (Constraints.ofProgram (.line h f 1 0 (.real 1))).lower 0 = .real 0 ∧
      (Constraints.ofProgram (.line h f 1 0 (.real 1))).lower 1 = .real 0 := ⟨rfl, rfl⟩
  have hupper : (Constraints.ofProgram (.line h f 1 0 (.real 1))).upper 0 = .plusInfinity ∧
      (Constraints.ofProgram (.line h f 1 0 (.real 1))).upper 1 = .real 1 := ⟨rfl, rfl⟩
  generalize Constraints.ofProgram (.line h f 1 0 (.real 1)) = c at hsize hlower hupper ⊢
  have hrow : (topPoint ρ x).atLower c 0 = false ∧ (topPoint ρ x).atUpper c 0 = false := by
    rw [Point.atLower, Point.atUpper, hz.1, hy.1, hlower.1, hupper.1, decide_eq_false_iff_not,
      decide_eq_false_iff_not, Exact.real_sub, Exact.real_neg, Exact.real_lt_real]
    exact ⟨by linarith, Exact.not_plusInfinity_lt _⟩
  have hvariable : (topPoint ρ x).atLower c 1 = false ∧ (topPoint ρ x).atUpper c 1 = true := by
    rw [Point.atLower, Point.atUpper, hz.2, hy.2, hlower.2, hupper.2, decide_eq_false_iff_not, decide_eq_true_eq,
      Exact.real_sub, Exact.real_neg, Exact.real_lt_real, Exact.real_sub, Exact.real_lt_real]
    exact ⟨by linarith, by linarith⟩
  have hrange : List.range 2 = [0, 1] := rfl
  rw [Point.activeSet, hsize, hrange]
  simp [hrow, hvariable, atTop]

theorem active_top (h f : ℝ) :
    (Program.lineReals h f 1 0 (.real 1)).active atTop = Matrix.of fun _ _ => 1 := by
  ext k j
  have hrow : (Constraints.ofProgram (.line h f 1 0 (.real 1))).rows 1 j =
      .real ((Program.lineReals h f 1 0 (.real 1)).row 1 j) :=
    (Program.lineReals h f 1 0 (.real 1)).get_row Nat.one_lt_two j
  have hentry : (Constraints.ofProgram (.line h f 1 0 (.real 1))).rows 1 j = .real 1 := by
    refine (congrArg (fun m : Mat Exact => m 1 j) (Program.rows_line h f 1 0 (.real 1))).trans ?_
    exact Mat.get_ofReal _ Nat.one_lt_two j.isLt
  obtain rfl : k = ⟨0, Nat.one_pos⟩ := Subsingleton.elim (α := Fin 1) _ _
  exact Exact.real_inj.1 (hrow.symm.trans hentry)

theorem rhs_top (h f : ℝ) : atTop.rhs (System.ofProgram (.line h f 1 0 (.real 1))) =
    .ofReal (Fin.append (fun _ : Fin 1 => -f) fun _ : Fin 1 => 1) := by
  refine (Program.lineReals h f 1 0 (.real 1)).rhs_active (a := atTop) (b := fun _ => 1) fun k => ?_
  obtain rfl : k = ⟨0, Nat.one_pos⟩ := Subsingleton.elim (α := Fin 1) _ _
  rfl

/-- A point of the interval with a vanishing gradient and a multiplier of the right sign is accepted. -/
theorem accepts_top (he : 0 ≤ e) (hw : 0 ≤ w) (hone : w ≤ 1) (hμ : -e ≤ μ) (hgradient : h * w + f + μ = 0) :
    atTop.Accepts (Program.lineReals h f 1 0 (.real 1)) (.real e) (fun _ => w) (fun _ => μ) := by
  let R := Program.lineReals h f 1 0 (.real 1)
  let p := Program.line h f 1 0 (.real 1)
  have hscale : 0 ≤ e * (1 + ‖fun _ : Fin p.dimension => w‖ + ‖R.f‖) := by positivity
  have hfeasible : p.IsFeasible (.single w) :=
    (Program.isFeasible_line_iff h f 1 0 (.real 1) w).2 ⟨by rwa [one_mul], hw, Exact.real_le_real.2 hone⟩
  rw [Vec.single_eq_ofReal fun _ => w] at hfeasible
  have hadmits := (R.isFeasible_iff fun _ => w).1 hfeasible
  have hzero : (Matrix.of fun _ _ : Fin 1 => h) *ᵥ (fun _ => w) + (fun _ : Fin 1 => f) +
      (Matrix.of fun _ _ : Fin 1 => (1 : ℝ))ᵀ *ᵥ (fun _ : Fin 1 => μ) = 0 := by
    funext i
    simpa [mulVec, dotProduct] using hgradient
  refine ⟨fun k hk => absurd hk (Nat.not_lt_zero _), fun k hk => ?_, ?_, ?_⟩
  · rw [Exact.real_neg, Exact.real_le_real]
    exact hμ
  · rw [Exact.real_mul]
    refine R.maxViolation_le hscale fun i => ⟨fun _ => ?_, fun _ => ?_⟩
    · exact Exact.sub_real_le (hadmits i).1 (by rwa [sub_self])
    · exact Exact.real_sub_le (hadmits i).2 (by rwa [sub_self])
  · rw [active_top, Exact.real_mul, Exact.real_le_real]
    exact (norm_le_zero_iff.2 hzero).trans hscale

/-- A run whose first solution is above the interval gives the refined point, if that is accepted. -/
theorem refined_top {settings : Settings Exact} {h f σ ρ x w μ : ℝ} {general : Mat Exact → LinearSolver Exact}
    (hwide : settings.IsWide σ ρ) (hm : 1 / 10 ≤ |h + σ + ρ * (1 * 1 + 1)|)
    (hx : -f / (h + σ + ρ * (1 * 1 + 1)) = x) (habove : 1 < x) (hle : x ≤ 5)
    (hforce : |h * x + f + ρ * (x - 1)| ≤ 4) (hpolish : settings.polish = true)
    (hsolution : atTop.solve general (System.ofProgram (.line h f 1 0 (.real 1))) settings =
      .ofReal (Fin.append (fun _ : Fin 1 => w) fun _ : Fin 1 => μ))
    (haccepts : atTop.Accepts (Program.lineReals h f 1 0 (.real 1)) settings.polishTolerance (fun _ => w) fun _ => μ) :
    ((⟨settings⟩ : Solver Exact).solve { Kernels.standard with general } (fun _ => 0.0)
        (.line h f 1 0 (.real 1))).info.polished = true ∧
      ((⟨settings⟩ : Solver Exact).solve { Kernels.standard with general } (fun _ => 0.0)
          (.line h f 1 0 (.real 1))).result =
        .ok ⟨.ofReal fun _ : Fin 1 => w, (Program.line h f 1 0 (.real 1)).objective (.ofReal fun _ : Fin 1 => w)⟩ := by
  obtain ⟨l, hpoint, hsolve⟩ := solve_top hwide hm hx habove hle hforce general
  have hrefined : (l.point.activeSet (Constraints.ofProgram (.line h f 1 0 (.real 1)))).polish? general
      (System.ofProgram (.line h f 1 0 (.real 1))) settings =
        some ⟨.ofReal fun _ : Fin 1 => w, .ofReal fun _ : Fin 1 => μ⟩ := by
    rw [hpoint, activeSet_top h f hwide.rho_pos habove]
    exact (ActiveSet.polish?_eq_some_iff _ (atTop_within h f) hsolution).2 ⟨haccepts, rfl⟩
  have hpolished : (Outcome.answer general (System.ofProgram (.line h f 1 0 (.real 1))) settings
      ⟨.converged, 0, l⟩).info.polished = true :=
    (congrArg Option.isSome (if_pos hpolish)).trans (congrArg Option.isSome hrefined)
  obtain ⟨refined, hrefined', hresult⟩ := Outcome.answer_polished hpolished
  obtain rfl := Option.some.inj (hrefined.symm.trans hrefined')
  rw [hsolve]
  exact ⟨hpolished, hresult⟩

end top

/-! ## A refined run -/

/-- Solves the system `w + μ = r₀`, `w = r₁`. -/
noncomputable def solveAtTop (_ : Mat Exact) : LinearSolver Exact := ⟨fun r => ⟨#[r 1, r 0 - r 1]⟩⟩

theorem get_append_single (f g : Fin 1 → ℝ) :
    Vec.ofReal (Fin.append f g) 0 = .real (f 0) ∧ Vec.ofReal (Fin.append f g) 1 = .real (g 0) :=
  ⟨Vec.get_ofReal_fin (Fin.append f g) (Fin.castAdd 1 0), Vec.get_ofReal_fin (Fin.append f g) (Fin.natAdd 1 0)⟩

theorem solveAtTop_append (m : Mat Exact) (f g : Fin 1 → ℝ) :
    (solveAtTop m).solve (.ofReal (Fin.append f g)) = .ofReal (Fin.append g (f - g)) := by
  obtain ⟨hfirst, hsecond⟩ := get_append_single f g
  refine Vec.ext rfl fun i hi => ?_
  obtain rfl | rfl : i = 0 ∨ i = 1 := Nat.le_one_iff_eq_zero_or_eq_one.1 (Nat.lt_succ_iff.1 hi)
  · exact hsecond.trans (get_append_single g (f - g)).1.symm
  · refine Eq.trans ?_ (get_append_single g (f - g)).2.symm
    change Vec.ofReal (Fin.append f g) 0 - Vec.ofReal (Fin.append f g) 1 = _
    rw [hfirst, hsecond]
    rfl

theorem isExact_ramp (m : Mat Exact) : (solveAtTop m).IsExact (atTop.regularized (System.ofProgram ramp) 0.0) := by
  have hactive : rampReals.active atTop = Matrix.of fun _ _ => 1 := active_top 1 (-4.5)
  rw [Exact.zero_literal, rampReals.regularized_active (atTop_within 1 (-4.5)), hactive, zero_smul, add_zero,
    zero_smul, neg_zero]
  refine LinearSolver.isExact_ofReal_iff.2 fun v => ?_
  obtain ⟨f, g, rfl⟩ : ∃ f g : Fin 1 → ℝ, v = Fin.append f g := ⟨_, _, (Fin.append_castAdd_natAdd (f := v)).symm⟩
  let one : Matrix (Fin 1) (Fin 1) ℝ := Matrix.of fun _ _ => 1
  have himage : blockMatrix one oneᵀ one 0 *ᵥ Fin.append g (f - g) = Fin.append f g := by
    have htranspose : oneᵀ = one := rfl
    rw [blockMatrix_mulVec_append, htranspose, of_one_mulVec, of_one_mulVec, zero_mulVec, add_zero, add_sub_cancel]
  exact ⟨Fin.append g (f - g), solveAtTop_append _ f g, himage⟩

theorem solve_atTop : atTop.solve solveAtTop (System.ofProgram ramp) (.oneStep true) =
    .ofReal (Fin.append (fun _ : Fin 1 => 1) fun _ : Fin 1 => 7 / 2) := by
  have hrhs : atTop.rhs (System.ofProgram ramp) = _ := rhs_top 1 (-4.5)
  have hdifference : (fun _ : Fin 1 => -(-4.5 : ℝ)) - (fun _ => 1) = fun _ => 7 / 2 := by
    funext i
    rw [Pi.sub_apply]
    norm_num
  rw [← hdifference, ← solveAtTop_append (atTop.regularized (System.ofProgram ramp) 0.0), ← hrhs]
  rfl

/-- The routines of the library, but for the refinement. -/
noncomputable def topKernels : Kernels Exact := { Kernels.standard with general := solveAtTop }

theorem polished_ramp :
    ((⟨.oneStep true⟩ : Solver Exact).solve topKernels (fun _ => 0.0) ramp).info.polished = true :=
  (refined_top (x := 9 / 8) (isWide_oneStep true) (by norm_num) (by norm_num) (by norm_num) (by norm_num)
    (abs_le.2 ⟨by norm_num, by norm_num⟩) rfl solve_atTop
    (accepts_top (by norm_num) zero_le_one le_rfl (by norm_num) (by norm_num))).1

theorem Solver.solve_polished_ramp :
    (ramp.WellBounded ∧ Scalar.isFinite (Settings.oneStep true).alpha = true ∧
        (⟨.oneStep true⟩ : Solver Exact).Throughout topKernels (fun _ => 0.0) ramp
          (Loop.IsSound ramp (.oneStep true)) ∧
        (Settings.oneStep true).polishDelta = .real 0 ∧
        ((⟨.oneStep true⟩ : Solver Exact).solve topKernels (fun _ => 0.0) ramp).info.polished = true) ∧
      (∀ m, (topKernels.general m).IsExact (atTop.regularized (System.ofProgram ramp) 0.0)) ∧
      ∃ a w μ, (⟨.oneStep true⟩ : Solver Exact).Refines topKernels (fun _ => 0.0) rampReals 0 a w μ := by
  have halpha : Scalar.isFinite (Settings.oneStep true).alpha = true :=
    Exact.isFinite_iff.2 ⟨1, Exact.one_literal⟩
  have hsound := throughout_ramp solveAtTop true
  have hδ : (Settings.oneStep true).polishDelta = .real 0 := Exact.zero_literal
  exact ⟨⟨wellBounded_ramp, halpha, hsound, hδ, polished_ramp⟩, isExact_ramp,
    Solver.solve_polished rampReals wellBounded_ramp halpha hsound hδ polished_ramp⟩

/-! ## A refined point away from its bound -/

/-- Optimality up to tolerances, with a multiplier for each side of each constraint: the signs up to `e`, the
bounds and the gradient up to `t`, and up to `t` equality at each side with a multiplier greater than `t`. -/
structure IsKktWithin {p : Program Exact} (R : p.Reals) (e t : ℝ) (w : Fin p.dimension → ℝ)
    (lower upper : Fin (p.numRows + p.dimension) → ℝ) : Prop where
  violation : p.maxViolation (.ofReal w) ≤ .real t
  lower_sign : ∀ i, lower i ≤ e
  upper_sign : ∀ i, -e ≤ upper i
  gradient : ‖R.H *ᵥ w + R.f + R.stackedᵀ *ᵥ (lower + upper)‖ ≤ t
  lower_tight : ∀ i, t < |lower i| →
    ∃ b, (Constraints.ofProgram p).lower i = .real b ∧ |(R.stacked *ᵥ w) i - b| ≤ t
  upper_tight : ∀ i, t < |upper i| →
    ∃ b, (Constraints.ofProgram p).upper i = .real b ∧ |(R.stacked *ᵥ w) i - b| ≤ t

/-- One iteration, refined with a regularisation of one and six corrections. -/
noncomputable def Settings.loose : Settings Exact :=
  { Settings.oneStep true with rho := 0.25, sigma := 0.25, polishDelta := 1.0, polishSteps := 6 }

theorem isWide_loose : Settings.loose.IsWide (1 / 4) (1 / 4) where
  sigma := (Exact.literal _ _ _).trans (congrArg Exact.real (by norm_num))
  rho := (Exact.literal _ _ _).trans (congrArg Exact.real (by norm_num))
  rho_pos := by norm_num
  alpha := (isWide_oneStep true).alpha
  absolute := (isWide_oneStep true).absolute
  relative := rfl
  infeasibility := rfl
  timeLimit := rfl
  iterations := rfl

theorem validate_loose : Settings.loose.validate = .ok () := by
  unfold Settings.validate
  simp only [Settings.loose, Settings.oneStep, Exact.literal, Exact.real_le_real]
  norm_num

/-- Minimises `-w` over the unit interval. -/
noncomputable def slide : Program Exact := .line 0 (-1) 1 0 (.real 1)

noncomputable def slideReals : slide.Reals := Program.lineReals 0 (-1) 1 0 (.real 1)

/-- Solves the system `w + μ = r₀`, `w - μ = r₁`. -/
noncomputable def solveSums (_ : Mat Exact) : LinearSolver Exact :=
  let half : Matrix (Fin 1) (Fin 1) ℝ := (0.5 : ℝ) • Matrix.of fun _ _ => 1
  ⟨(Mat.ofReal (blockMatrix half half half (-half))).mulVec⟩

theorem solveSums_append (m : Mat Exact) (f g : Fin 1 → ℝ) : (solveSums m).solve (.ofReal (Fin.append f g)) =
    .ofReal (Fin.append ((0.5 : ℝ) • (f + g)) ((0.5 : ℝ) • (f - g))) := by
  refine (Mat.mulVec_ofReal _ _).trans ?_
  rw [blockMatrix_mulVec_append, neg_mulVec, smul_mulVec, smul_mulVec, of_one_mulVec, of_one_mulVec, ← smul_add,
    ← sub_eq_add_neg, ← smul_sub]

theorem matrix_slide : atTop.matrix (System.ofProgram slide) =
    Mat.ofReal (blockMatrix 0 (Matrix.of fun _ _ : Fin 1 => 1)ᵀ (Matrix.of fun _ _ : Fin 1 => 1) 0) := by
  have hactive : slideReals.active atTop = Matrix.of fun _ _ => 1 := active_top 0 (-1)
  refine (slideReals.matrix_active (atTop_within 0 (-1))).trans ?_
  rw [hactive]
  rfl

theorem regularized_slide : atTop.regularized (System.ofProgram slide) Settings.loose.polishDelta =
    Mat.ofReal (blockMatrix 1 (Matrix.of fun _ _ : Fin 1 => 1)ᵀ (Matrix.of fun _ _ : Fin 1 => 1) (-1)) := by
  have hdelta : Settings.loose.polishDelta = .real 1 := Exact.one_literal
  have hactive : slideReals.active atTop = Matrix.of fun _ _ => 1 := active_top 0 (-1)
  have hflat : slideReals.H = 0 := rfl
  rw [hdelta]
  refine (slideReals.regularized_active (atTop_within 0 (-1)) 1).trans ?_
  rw [hactive, hflat, zero_add, one_smul, one_smul]
  rfl

theorem isExact_slide (m : Mat Exact) :
    (solveSums m).IsExact (atTop.regularized (System.ofProgram slide) Settings.loose.polishDelta) := by
  rw [regularized_slide]
  refine LinearSolver.isExact_ofReal_iff.2 fun v => ?_
  obtain ⟨f, g, rfl⟩ : ∃ f g : Fin 1 → ℝ, v = Fin.append f g := ⟨_, _, (Fin.append_castAdd_natAdd (f := v)).symm⟩
  have htranspose : (Matrix.of fun _ _ : Fin 1 => (1 : ℝ))ᵀ = Matrix.of fun _ _ => 1 := rfl
  refine ⟨_, solveSums_append m f g, ?_⟩
  rw [blockMatrix_mulVec_append, htranspose, neg_mulVec, one_mulVec, one_mulVec, of_one_mulVec, of_one_mulVec]
  congr 1
  · module
  · module

theorem correct_slide (m : Mat Exact) (k : ℕ) (w μ : ℝ) :
    correct (solveSums m) (atTop.matrix (System.ofProgram slide)) (atTop.rhs (System.ofProgram slide)) (k + 1)
        (.ofReal (Fin.append (fun _ : Fin 1 => w) fun _ : Fin 1 => μ)) =
      correct (solveSums m) (atTop.matrix (System.ofProgram slide)) (atTop.rhs (System.ofProgram slide)) k
        (.ofReal (Fin.append (fun _ : Fin 1 => (2 + w - μ) / 2) fun _ : Fin 1 => (w + μ) / 2)) := by
  have hrhs : atTop.rhs (System.ofProgram slide) = _ := rhs_top 0 (-1)
  have htranspose : (Matrix.of fun _ _ : Fin 1 => (1 : ℝ))ᵀ = Matrix.of fun _ _ => 1 := rfl
  rw [correct, hrhs, matrix_slide, Mat.mulVec_ofReal, blockMatrix_mulVec_append, htranspose, zero_mulVec, zero_mulVec,
    zero_add, add_zero, of_one_mulVec, of_one_mulVec, Vec.ofReal_sub, append_sub_append, solveSums_append,
    Vec.ofReal_add, append_add_append]
  congr 3
  · funext i
    simp
    ring
  · funext i
    simp
    ring

theorem solve_slide : atTop.solve solveSums (System.ofProgram slide) .loose =
    .ofReal (Fin.append (fun _ : Fin 1 => 7 / 8) fun _ : Fin 1 => 1) := by
  have hrhs : atTop.rhs (System.ofProgram slide) = .ofReal (Fin.append (fun _ : Fin 1 => - -1) fun _ : Fin 1 => 1) :=
    rhs_top 0 (-1)
  have hfirst (m : Mat Exact) : (solveSums m).solve (atTop.rhs (System.ofProgram slide)) =
      .ofReal (Fin.append (fun _ : Fin 1 => 1) fun _ : Fin 1 => 0) := by
    rw [hrhs, solveSums_append]
    congr 2
    · funext i
      simp
      norm_num
    · funext i
      simp
  have hsteps : Settings.loose.polishSteps.toNat = 6 := rfl
  unfold ActiveSet.solve
  dsimp only
  rw [hfirst, hsteps, correct_slide, correct_slide, correct_slide, correct_slide, correct_slide, correct_slide, correct]
  norm_num

/-- No multipliers make the point optimal: it is too far away from all sides for one. -/
theorem not_isKktWithin_slide {e t : ℝ} (ht : t < 1 / 8) (lower upper : Fin 2 → ℝ) :
    ¬ IsKktWithin slideReals e t (fun _ => 7 / 8) lower upper := by
  intro hkkt
  have himage (i : Fin 2) : (slideReals.stacked *ᵥ fun _ => 7 / 8) i = 7 / 8 := by
    have hvector := Program.stacked_mulVec_line 0 (-1) 1 0 (.real 1) fun _ => 7 / 8
    fin_cases i
    · exact (congrFun hvector (0 : Fin 2)).trans (one_mul _)
    · exact congrFun hvector (1 : Fin 2)
  have hlower (i : Fin 2) : |lower i| ≤ t := by
    refine not_lt.1 fun hlt => ?_
    obtain ⟨b, hb, hnear⟩ := hkkt.lower_tight i hlt
    have hzero : (Constraints.ofProgram slide).lower i = .real 0 := by
      fin_cases i <;> rfl
    obtain rfl := Exact.real_inj.1 (hzero.symm.trans hb)
    rw [himage, sub_zero] at hnear
    linarith [le_abs_self (7 / 8 : ℝ)]
  have hupper (i : Fin 2) : |upper i| ≤ t := by
    refine not_lt.1 fun hlt => ?_
    obtain ⟨b, hb, hnear⟩ := hkkt.upper_tight i hlt
    fin_cases i
    · cases hb
    · obtain rfl := Exact.real_inj.1 hb
      rw [himage] at hnear
      linarith [neg_abs_le (7 / 8 - 1 : ℝ)]
  have hgradient : (slideReals.H *ᵥ (fun _ => 7 / 8) + slideReals.f + slideReals.stackedᵀ *ᵥ (lower + upper))
      ⟨0, Nat.one_pos⟩ = -1 + (1 * (lower 0 + upper 0) + (lower 1 + upper 1)) := by
    have hflat : slideReals.H = 0 := rfl
    rw [hflat, zero_mulVec, zero_add]
    exact congrArg (-1 + ·) (congrFun (Program.transpose_mulVec_line 0 (-1) 1 0 (.real 1) (lower + upper))
      (0 : Fin 1))
  have hforce : |-1 + (1 * (lower 0 + upper 0) + (lower 1 + upper 1))| ≤ t := by
    rw [← hgradient]
    exact (norm_le_pi_norm _ _).trans hkkt.gradient
  linarith [abs_le.1 (hlower 0), abs_le.1 (hlower 1), abs_le.1 (hupper 0), abs_le.1 (hupper 1), abs_le.1 hforce]

/-- **Complementarity is not tested**: with a regularisation of one and six corrections, the minimiser at one is
replaced by a point away from it, which no multipliers make optimal up to the tolerance. -/
theorem Solver.solve_polished_slide :
    Solver.ofSettings .loose = .ok (⟨.loose⟩ : Solver Exact) ∧ check slide = .ok () ∧ 0 < slide.dimension ∧
      slide.IsConvex ∧ slide.WellBounded ∧
      (∀ m, (solveSums m).IsExact (atTop.regularized (System.ofProgram slide) Settings.loose.polishDelta)) ∧
      ∃ answer w, (⟨.loose⟩ : Solver Exact).solve { Kernels.standard with general := solveSums } (fun _ => 0.0) slide =
          answer ∧ answer.info.polished = true ∧ answer.result = .ok ⟨.ofReal w, slide.objective (.ofReal w)⟩ ∧
        ∀ lower upper, ¬ IsKktWithin slideReals 1e-8 (1e-8 * (1 + ‖w‖ + ‖slideReals.f‖)) w lower upper := by
  have haccepted : Solver.ofSettings .loose = .ok (⟨.loose⟩ : Solver Exact) := by
    rw [Solver.ofSettings, validate_loose]
  have hconvex : slide.IsConvex := ⟨0, rfl, PosSemidef.zero⟩
  have haccepts : atTop.Accepts slideReals (.real 1e-8) (fun _ => 7 / 8) (fun _ => 1) :=
    accepts_top (by norm_num) (by norm_num) (by norm_num) (by norm_num) (by norm_num)
  obtain ⟨hpolished, hresult⟩ := refined_top (x := 4 / 3) isWide_loose (by norm_num) (by norm_num) (by norm_num) (by norm_num)
    (abs_le.2 ⟨by norm_num, by norm_num⟩) rfl solve_slide haccepts
  have htolerance : 1e-8 * (1 + ‖fun _ : Fin slide.dimension => (7 / 8 : ℝ)‖ + ‖slideReals.f‖) < 1 / 8 := by
    have hvector : ‖fun _ : Fin slide.dimension => (7 / 8 : ℝ)‖ = 7 / 8 :=
      (norm_fin_one _).trans (abs_of_pos (by norm_num))
    have hforce : ‖slideReals.f‖ = 1 := (norm_fin_one _).trans ((abs_neg 1).trans abs_one)
    rw [hforce, hvector]
    norm_num
  exact ⟨haccepted, slideReals.check, Nat.one_pos, hconvex,
    Program.wellBounded_line 0 (-1) 1 0 _ (Exact.real_le_real.2 zero_le_one), isExact_slide, _, fun _ => 7 / 8, rfl,
    hpolished, hresult, not_isKktWithin_slide htolerance⟩

end Splitting

end BinarySplitting
