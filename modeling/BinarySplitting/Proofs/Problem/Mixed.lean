import Mathlib.LinearAlgebra.Matrix.Notation
import BinarySplitting.Proofs.Decomposition.ContinuousBlock
import BinarySplitting.Proofs.Engine.Start
import BinarySplitting.Proofs.Linear.Ldlt
import BinarySplitting.Proofs.Problem.Unconstrained

/-!
# Problems with one continuous variable

Problems in binary variables and one continuous variable without upper bound, with any numbers of equalities,
inequalities and coupling rows. Over exact numbers they are accepted whenever the form of the binary part is
symmetric up to the tolerance and that of the continuous part is not negative (`Problem.mixed_accepted`), so
statements about accepted problems cover forms that are not symmetric, too.
-/

namespace BinarySplitting

open Matrix

/-! ## The eigenvalue of a number -/

namespace Spectrum

theorem exists_doubleWithin (limit : Exact) (k : ℕ) {a : ℝ} (ha : 0 < a) :
    ∃ r, 0 < r ∧ doubleWithin limit k (.real a) = .real r := by
  induction k generalizing a with
  | zero => exact ⟨a, ha, rfl⟩
  | succ k ih =>
    unfold doubleWithin
    rw [Exact.two_literal, Exact.real_mul]
    split
    · exact ih (mul_pos two_pos ha)
    · exact ⟨a, ha, rfl⟩

/-- There is nothing beside the diagonal of a number, and its scaling is undone exactly. -/
theorem ofMat_single (a : ℝ) : ofMat (.single a) = .single a := by
  obtain ⟨r, hr, hscale⟩ := exists_doubleWithin (Mat.single a).maxAbs 1023 one_pos
  rw [← Exact.one_literal] at hscale
  have hfull : (Mat.ofFn 1 1 fun i j => if j ≤ i then Mat.single a i j else Mat.single a j i) = .single a :=
    Mat.eq_single rfl rfl rfl
  have hscaled : (Mat.single a).map (· / .real r) = .single (a / r) := by
    refine Mat.eq_single rfl rfl ?_
    rw [Mat.get_map _ Nat.one_pos Nat.one_pos, Mat.get_single, Exact.real_div a hr.ne']
  have hswept : ∀ k, Nat.repeat sweep k (Mat.single (a / r)) = .single (a / r) := by
    intro k
    induction k with
    | zero => rfl
    | succ k ih =>
      rw [Nat.repeat, ih]
      rfl
  unfold ofMat scale
  dsimp only
  rw [Mat.rows_single, hfull, hscale, hscaled, hswept]
  refine Vec.eq_single (Vec.size_ofFn _ _) ?_
  rw [Vec.get_ofFn _ Nat.one_pos, Mat.get_single, Exact.real_mul, mul_div_cancel₀ a hr.ne']

end Spectrum

/-! ## Problems -/

namespace Problem

theorem isConvex_single {a : ℝ} (ha : 0 ≤ a) : IsConvex (.single a) := by
  have hleast : (Vec.single a).minimum = .real a := rfl
  have habs : (Vec.single a).map Scalar.abs = .single |a| :=
    Vec.eq_single (Vec.size_map _ _) ((Vec.get_map _ Nat.one_pos).trans (Exact.real_abs a))
  have hgreatest : (Vec.single |a|).maximum = .real |a| := rfl
  have htolerance : (tolerance : Exact) = .real 1e-9 := rfl
  unfold IsConvex
  rw [hleast, habs, hgreatest, htolerance, Exact.one_literal, Exact.larger_real, Exact.real_neg, Exact.real_mul,
    Exact.real_lt_real, not_lt]
  have hscale : 0 ≤ max 1 |a| := le_max_of_le_left zero_le_one
  linarith [mul_nonneg (by norm_num : (0 : ℝ) ≤ 1e-9) hscale]

section mixed

variable {n e m k : ℕ}

/-- Real data of a problem with one continuous variable. -/
structure MixedData (n e m k : ℕ) where
  Q : Matrix (Fin n) (Fin n) ℝ
  a : Fin n → ℝ
  P : ℝ
  c : ℝ
  constant : ℝ
  G : Matrix (Fin e) (Fin n) ℝ
  b : Fin e → ℝ
  A : Matrix (Fin m) (Fin n) ℝ
  r : Fin m → ℝ
  C : Matrix (Fin k) (Fin n) ℝ
  D : Matrix (Fin k) (Fin 1) ℝ
  d : Fin k → ℝ
  lower : ℝ

/-- The problem with these data, whose continuous variable has no upper bound. -/
noncomputable def mixed (data : MixedData n e m k) : Problem Exact where
  binaryQuadratic := .ofReal data.Q
  binaryLinear := .ofReal data.a
  continuousQuadratic := .single data.P
  continuousLinear := .single data.c
  constant := .real data.constant
  equalityRows := .ofReal data.G
  equalityRhs := .ofReal data.b
  inequalityRows := .ofReal data.A
  inequalityRhs := .ofReal data.r
  couplingBinary := .ofReal data.C
  couplingContinuous := .ofReal data.D
  couplingRhs := .ofReal data.d
  lower := .single data.lower
  upper := ⟨#[Scalar.infinity]⟩
  binaryNames := []
  continuousNames := []

variable (data : MixedData n e m k)

theorem mixed_sizes : (mixed data).numBinary = n ∧ (mixed data).numContinuous = 1 ∧
    (mixed data).numEqualities = e ∧ (mixed data).numInequalities = m ∧ (mixed data).numCoupling = k :=
  ⟨Vec.size_ofReal _, rfl, Vec.size_ofReal _, Vec.size_ofReal _, Vec.size_ofReal _⟩

theorem mixed_accepted (hn : 0 < n) (hQ : ∀ i j, |data.Q i j - data.Q j i| ≤ 1e-9) (hP : 0 ≤ data.P) :
    (mixed data).Accepted Spectrum.ofMat := by
  obtain ⟨hbinary, hcontinuous, hequalities, hinequalities, hcoupling⟩ := mixed_sizes data
  have hfits : ∀ {rows cols : ℕ} (M : Matrix (Fin rows) (Fin cols) ℝ), (Mat.ofReal M).Fits rows cols :=
    fun M => Or.inr (by simp [Mat.hasShape])
  refine { numBinary_pos := hn.trans_eq hbinary.symm, binaryQuadratic := ?_,
           binaryQuadratic_finite := Mat.allFinite_ofReal _, binaryLinear_finite := Vec.allFinite_ofReal _,
           binaryQuadratic_symmetric := isSymmetric_ofReal_of_near hQ hn, continuousQuadratic := hfits _,
           continuousQuadratic_finite := Mat.allFinite_ofReal _,
           continuousLinear_finite := Vec.allFinite_single _,
           continuousQuadratic_convex := fun _ => ⟨?_, ?_⟩, constant_finite := Exact.isFinite_iff.2 ⟨_, rfl⟩,
           equalityRows := ?_, equalityRows_finite := Mat.allFinite_ofReal _,
           equalityRhs_finite := Vec.allFinite_ofReal _, inequalityRows := ?_,
           inequalityRows_finite := Mat.allFinite_ofReal _, inequalityRhs_finite := Vec.allFinite_ofReal _,
           couplingBinary := ?_, couplingContinuous := ?_, couplingBinary_finite := Mat.allFinite_ofReal _,
           couplingContinuous_finite := Mat.allFinite_ofReal _, couplingRhs_finite := Vec.allFinite_ofReal _,
           lower_size := rfl, upper_size := rfl, hasValue := ?_,
           binaryNames := Or.inl rfl, continuousNames := Or.inl rfl }
  · rw [hbinary]
    exact hfits _
  · exact isSymmetric_ofReal (Matrix.IsSymm.ext fun _ _ => rfl) one_pos
  · show IsConvex (Spectrum.ofMat (.single data.P))
    rw [Spectrum.ofMat_single]
    exact isConvex_single hP
  · rw [hbinary, hequalities]
    exact hfits _
  · rw [hbinary, hinequalities]
    exact hfits _
  · rw [hbinary, hcoupling]
    exact hfits _
  · rw [hcoupling]
    exact hfits _
  · intro j hj
    obtain rfl : j = 0 := by rw [hcontinuous] at hj; omega
    have hneg : -Exact.plusInfinity = .minusInfinity := rfl
    show hasNoValue (.real data.lower) Exact.plusInfinity = false
    simp [hasNoValue, Scalar.same, Scalar.isUndefined, Exact.infinity_eq, Exact.lt_iff_le_not_le, hneg]

theorem continuousObjective_mixed (t : ℝ) :
    (mixed data).continuousObjective (.single t) = .real (data.P * (t * t) + data.c * t) := by
  have hvec : ∀ a : ℝ, Vec.single a = Vec.ofReal fun _ : Fin 1 => a := fun a => Vec.single_eq_ofReal fun _ => a
  have hforms : (mixed data).continuousQuadratic = .single data.P ∧
      (mixed data).continuousLinear = .single data.c := ⟨rfl, rfl⟩
  unfold continuousObjective
  rw [(mixed_sizes data).2.1, if_neg one_ne_zero, hforms.1, hforms.2, hvec, hvec, Mat.single,
    Mat.quadraticForm_ofReal, Vec.dot_ofReal, Exact.real_add]
  simp [dotProduct, mulVec]
  ring

theorem isContinuousFeasible_mixed_iff (t : ℝ) : (mixed data).IsContinuousFeasible (.single t) ↔
    (∀ i, data.D i 0 * t ≤ data.d i) ∧ data.lower ≤ t := by
  have hrow : ∀ i : Fin k, (Scalar.sum 1 fun j => Mat.ofReal data.D i j * Vec.single t j) =
      .real (data.D i 0 * t) := by
    intro i
    rw [Scalar.sum_real (g := fun j => data.D i j * t) fun j => ?_, Fin.sum_univ_one]
    rw [Subsingleton.elim j 0, Mat.get_ofReal_fin, Fin.val_zero, Vec.get_single, Exact.real_mul]
  have hcoupling : (mixed data).numCoupling = k := (mixed_sizes data).2.2.2.2
  constructor
  · intro h
    refine ⟨fun i => ?_, ?_⟩
    · have hi := h.coupling i (i.isLt.trans_eq hcoupling.symm)
      change (Scalar.sum 1 fun j => Mat.ofReal data.D i j * Vec.single t j) ≤ Vec.ofReal data.d i at hi
      rwa [hrow, Vec.get_ofReal_fin, Exact.real_le_real] at hi
    · exact Exact.real_le_real.1 (h.bounds 0 one_pos).1
  · rintro ⟨hrows, hlower⟩
    refine ⟨fun i hi => ?_, fun j hj => ?_⟩
    · rw [hcoupling] at hi
      change (Scalar.sum 1 fun j => Mat.ofReal data.D i j * Vec.single t j) ≤ Vec.ofReal data.d i
      rw [hrow ⟨i, hi⟩, Vec.get_ofReal _ hi, Exact.real_le_real]
      exact hrows ⟨i, hi⟩
    · obtain rfl : j = 0 := Nat.lt_one_iff.1 hj
      exact ⟨Exact.real_le_real.2 hlower, Exact.real_le_plusInfinity t⟩

end mixed

/-- Two binary variables with a form that is not quite symmetric, one of which is to be chosen, and a continuous
variable of least value at one half. The inequalities and the binary part of the coupling row are left open. -/
noncomputable def pair {m : ℕ} (A : Matrix (Fin m) (Fin 2) ℝ) (r : Fin m → ℝ) (C : Matrix (Fin 1) (Fin 2) ℝ) :
    Problem Exact :=
  mixed { Q := !![0, 1e-10; 0, 0], a := ![1, -1], P := 1, c := -1, constant := 1, G := !![1, 1], b := ![1],
          A := A, r := r, C := C, D := !![1], d := ![1], lower := 0 }

/-- One binary variable with coefficient `a` and a continuous variable of least value at one half; the relaxed copy and
the continuous variable share one half between them. -/
noncomputable def shared (a : ℝ) : Problem Exact :=
  mixed (e := 0) (m := 0)
    { Q := 0, a := ![a], P := 1, c := -1, constant := 0, G := 0, b := 0, A := 0, r := 0, C := 1, D := 1, d := ![0.5],
      lower := 0 }

theorem shared_sizes (a : ℝ) : (shared a).numBinary = 1 ∧ (shared a).numContinuous = 1 ∧
    (shared a).numEqualities = 0 ∧ (shared a).numInequalities = 0 ∧ (shared a).numCoupling = 1 :=
  mixed_sizes _

theorem binaryObjective_shared (a x : ℝ) : (shared a).binaryObjective (.single x) = .real (a * x) := by
  show (Mat.ofReal 0).quadraticForm (Vec.single x) + (Vec.ofReal ![a]).dot (Vec.single x) = _
  rw [Vec.single_eq_ofReal fun _ => x, Mat.quadraticForm_ofReal, Vec.dot_ofReal, Exact.real_add]
  simp [dotProduct]

theorem isBlockFeasible_shared_iff (a z u : ℝ) : (shared a).IsBlockFeasible (.single z) (.single u) ↔
    (0 ≤ z ∧ z ≤ 1) ∧ z + u ≤ 1 / 2 ∧ 0 ≤ u := by
  obtain ⟨hbinary, hcontinuous, -, hinequalities, hcoupling⟩ := shared_sizes a
  have hrow : (shared a).couplingLhs (.single z) (.single u) 0 = .real (z + u) := by
    show ((Mat.ofReal 1).mulVec (Vec.single z) + (Mat.ofReal 1).mulVec (Vec.single u)) 0 = _
    rw [Vec.single_eq_ofReal fun _ => z, Vec.single_eq_ofReal fun _ => u, Mat.mulVec_ofReal, Mat.mulVec_ofReal,
      one_mulVec, one_mulVec, Vec.ofReal_add, Vec.get_ofReal _ Nat.one_pos]
    rfl
  have hhalf : (0.5 : ℝ) = 1 / 2 := by norm_num
  have hshare : (shared a).couplingRhs 0 = .real (1 / 2) := hhalf ▸ Vec.get_ofReal _ Nat.one_pos
  constructor
  · intro h
    obtain ⟨hlower, hupper⟩ := h.unit 0 (hbinary ▸ Nat.one_pos)
    have hsum := h.coupling 0 (hcoupling ▸ Nat.one_pos)
    rw [Exact.zero_literal, Vec.get_single, Exact.real_le_real] at hlower
    rw [Exact.one_literal, Vec.get_single, Exact.real_le_real] at hupper
    rw [hrow, hshare, Exact.real_le_real] at hsum
    exact ⟨⟨hlower, hupper⟩, hsum, Exact.real_le_real.1 (h.bounds 0 (hcontinuous ▸ Nat.one_pos)).1⟩
  · rintro ⟨⟨hlower, hupper⟩, hsum, hnonneg⟩
    refine ⟨fun i hi => ?_, nofun, fun i hi => ?_, fun j hj => ?_⟩
    · obtain rfl : i = 0 := by omega
      rw [Exact.zero_literal, Exact.one_literal, Vec.get_single, Exact.real_le_real, Exact.real_le_real]
      exact ⟨hlower, hupper⟩
    · obtain rfl : i = 0 := by omega
      rw [hrow, hshare, Exact.real_le_real]
      exact hsum
    · obtain rfl : j = 0 := by omega
      exact ⟨Exact.real_le_real.2 hnonneg, Exact.real_le_plusInfinity u⟩

end Problem

/-- The iterate with given vectors and a given penalty. -/
noncomputable def Iterate.ofReal {n l : ℕ} (x z s y : Fin n → ℝ) (u : Fin l → ℝ) (ρ : ℝ) : Iterate Exact :=
  { Iterate.blank with
    x := .ofReal x
    z := .ofReal z
    s := .ofReal s
    y := .ofReal y
    u := .ofReal u
    rho := .real ρ }

/-! ## Decomposition -/

namespace Decomposition

theorem create_mixed {n e m k : ℕ} (data : Problem.MixedData n e m k) (hn : 0 < n)
    (hQ : ∀ i j, |data.Q i j - data.Q j i| ≤ 1e-9) (hP : 0 ≤ data.P) :
    create .standard (.mixed data) .standard = .ok (ofProblem (.mixed data) .standard) :=
  create_eq_ok_iff.2 ⟨Problem.mixed_accepted data hn hQ hP, Params.standard_validate, rfl⟩

/-- The relaxed copy has a closed form exactly if there is no inequality and no coupling row touches it. -/
theorem closedForm_mixed {n e m k : ℕ} (data : Problem.MixedData n e m k) (hn : 0 < n) (hk : 0 < k)
    (params : Params Exact) :
    (ofProblem (.mixed data) params).closedForm = true ↔ m = 0 ∧ data.C = 0 := by
  obtain ⟨-, -, -, hinequalities, hcoupling⟩ := Problem.mixed_sizes data
  have hempty := Mat.isEmpty_ofReal data.C hk hn
  have hblock : (Problem.mixed data).couplingBinary = .ofReal data.C := rfl
  rw [ofProblem_closedForm, touchesBinaries, hinequalities, hcoupling, hblock, hempty, decide_eq_true hk]
  have hzero : (Mat.ofReal data.C).any (fun a => !Scalar.same a 0.0) = false ↔ data.C = 0 := by
    rw [← Bool.not_eq_true, Mat.any_ofReal]
    simp [Exact.same_real, ← Matrix.ext_iff]
  rw [Bool.and_eq_true, decide_eq_true_iff, Bool.not_eq_true']
  exact and_congr_right' hzero

theorem hasVectors_mixed {n e m k : ℕ} (data : Problem.MixedData n e m k) {params : Params Exact}
    {x z s y : Fin n → ℝ} {u : Fin 1 → ℝ} {ρ : ℝ} :
    (ofProblem (.mixed data) params).HasVectors (.ofReal x z s y u ρ) := by
  have hvector : ∀ {k : ℕ} (f : Fin k → ℝ), (Vec.ofReal f).size = k ∧ (Vec.ofReal f).allFinite = true :=
    fun f => ⟨Vec.size_ofReal f, Vec.allFinite_ofReal f⟩
  obtain ⟨hcount, hcontinuous, -⟩ := Problem.mixed_sizes data
  refine ⟨?_, ?_, ?_, ?_, ?_⟩ <;> rw [ofProblem_problem]
  · rw [hcount]
    exact hvector x
  · rw [hcount]
    exact hvector z
  · rw [hcount]
    exact hvector s
  · rw [hcount]
    exact hvector y
  · rw [hcontinuous]
    exact hvector u

theorem checkPass_mixed {n e m k : ℕ} (data : Problem.MixedData n e m k) {params : Params Exact}
    {x z s y : Fin n → ℝ} {u : Fin 1 → ℝ} {ρ : ℝ} (hρ : 0 < ρ) :
    (ofProblem (.mixed data) params).checkPass (.ofReal x z s y u ρ) = .ok () :=
  checkPass_ok.2 ⟨hasVectors_mixed data, by rw [Exact.zero_literal]; exact Exact.real_lt_real.2 hρ⟩

variable {m : ℕ} (A : Matrix (Fin m) (Fin 2) ℝ) (r : Fin m → ℝ) (C : Matrix (Fin 1) (Fin 2) ℝ)

theorem create_pair : create .standard (.pair A r C) .standard = .ok (ofProblem (.pair A r C) .standard) := by
  refine create_mixed _ two_pos (fun i j => ?_) (zero_le_one' ℝ)
  fin_cases i <;> fin_cases j <;> norm_num

theorem closedForm_pair : (ofProblem (.pair A r C) .standard).closedForm = true ↔ m = 0 ∧ C = 0 :=
  closedForm_mixed _ two_pos one_pos _

theorem hasVectors_pair {x z s y : Fin 2 → ℝ} {u : Fin 1 → ℝ} {ρ : ℝ} :
    (ofProblem (.pair A r C) .standard).HasVectors (.ofReal x z s y u ρ) :=
  hasVectors_mixed _

theorem checkPass_pair {x z s y : Fin 2 → ℝ} {u : Fin 1 → ℝ} {ρ : ℝ} (hρ : 0 < ρ) :
    (ofProblem (.pair A r C) .standard).checkPass (.ofReal x z s y u ρ) = .ok () :=
  checkPass_mixed _ hρ

/-- The decomposition of the problem with shared variables. -/
noncomputable abbrev shared (a : ℝ) : Decomposition Exact := ofProblem (.shared a) .standard

theorem create_shared (a : ℝ) : create .standard (.shared a) .standard = .ok (shared a) := by
  refine create_mixed _ one_pos (fun i j => ?_) (zero_le_one' ℝ)
  rw [Subsingleton.elim i j]
  norm_num

theorem closedForm_shared (a : ℝ) : (shared a).closedForm = false := by
  rw [← Bool.not_eq_true]
  exact fun hclosed => one_ne_zero ((closedForm_mixed _ one_pos one_pos _).1 hclosed).2

theorem problem_shared (a : ℝ) : (shared a).problem = .shared a := ofProblem_problem _ _

theorem sizes_shared (a : ℝ) : (shared a).problem.numBinary = 1 ∧ (shared a).problem.numContinuous = 1 := by
  rw [problem_shared]
  exact ⟨(Problem.shared_sizes a).1, (Problem.shared_sizes a).2.1⟩

theorem hasVectors_shared (a : ℝ) {x z s y u : Fin 1 → ℝ} {ρ : ℝ} :
    (shared a).HasVectors (.ofReal x z s y u ρ) :=
  hasVectors_mixed _

end Decomposition

end BinarySplitting
