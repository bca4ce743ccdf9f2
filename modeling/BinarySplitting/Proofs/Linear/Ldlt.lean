import BinarySplitting.Linear.Standard
import BinarySplitting.Proofs.Linear.Real

/-!
# Systems with one unknown

The symmetric factorisation of a single number is the number itself, and solving with it divides by
it. A number that is not above the smallest normal machine number counts as zero.
-/

namespace BinarySplitting

open Matrix

def Vec.single (b : ℝ) : Vec Exact := ⟨#[.real b]⟩

def Mat.single (a : ℝ) : Mat Exact := ofReal (Matrix.of fun _ _ : Fin 1 => a)

section single

variable (a b : ℝ)

@[simp] theorem Vec.size_single : (single b).size = 1 := rfl

@[simp] theorem Vec.get_single : single b 0 = .real b := rfl

@[simp] theorem Mat.rows_single : (single a).rows = 1 := rfl

@[simp] theorem Mat.cols_single : (single a).cols = 1 := rfl

@[simp] theorem Mat.get_single : single a 0 0 = .real a := get_ofReal _ Nat.one_pos Nat.one_pos

variable {a b}

theorem Vec.eq_single {v : Vec Exact} (hsize : v.size = 1) (hentry : v 0 = .real b) : v = single b := by
  refine ext hsize fun i hi => ?_
  obtain rfl : i = 0 := by omega
  rw [hentry, get_single]

theorem Vec.single_eq_ofReal (f : Fin 1 → ℝ) : single (f 0) = ofReal f :=
  (eq_single (size_ofReal f) (get_ofReal_fin f 0)).symm

theorem Vec.ofReal_const_of_eq_one {n : ℕ} (hn : n = 1) (b : ℝ) : ofReal (fun _ : Fin n => b) = single b := by
  subst hn
  exact (single_eq_ofReal fun _ => b).symm

theorem Vec.exists_eq_const_of_eq_one {n : ℕ} (hn : n = 1) (f : Fin n → ℝ) : ∃ b, f = fun _ => b := by
  subst hn
  exact ⟨f 0, funext fun i => congrArg f (Subsingleton.elim i 0)⟩

theorem Vec.allFinite_single (b : ℝ) : (single b).allFinite = true := by
  have hreal := single_eq_ofReal fun _ => b
  rw [hreal]
  exact allFinite_ofReal _

theorem Mat.eq_single {m : Mat Exact} (hr : m.rows = 1) (hc : m.cols = 1) (hentry : m 0 0 = .real a) :
    m = single a := by
  refine ext hr hc fun i hi j hj => ?_
  obtain rfl : i = 0 := by omega
  obtain rfl : j = 0 := by omega
  rw [hentry, get_single]

theorem Mat.add_single (a b : ℝ) : single a + single b = single (a + b) := ofReal_add _ _

theorem Mat.smul_single (a b : ℝ) : Exact.real a • single b = single (a * b) := ofReal_smul a _

end single

namespace Ldlt

variable {a : ℝ}

theorem bring_single : bring ⟨[0], Mat.single a, false⟩ 0 0 = ⟨[0], Mat.single a, false⟩ := by
  unfold bring
  congr 1

theorem eliminate_single : eliminate (Mat.single a) 0 = Mat.single a := by
  refine Mat.eq_single rfl rfl ?_
  unfold eliminate
  rw [Mat.get_ofFn _ (by simp) (by simp)]
  simp

theorem step_single (ha : a ≠ 0) : step ⟨[0], Mat.single a, false⟩ 0 = some ⟨[0], Mat.single a, false⟩ := by
  have hpivot : (0.0 : Exact) < Scalar.abs (.real a) := by
    rw [Exact.real_abs, Exact.zero_literal, Exact.real_lt_real]
    exact abs_pos.2 ha
  have hlargest : largestDiagonal (Mat.single a) 0 1 = 0 := by
    simp [largestDiagonal]
  unfold step
  dsimp only [Mat.rows_single]
  rw [Nat.sub_zero, hlargest, bring_single]
  dsimp only
  rw [Mat.get_single, if_pos hpivot, eliminate_single]
  rfl

theorem ofMat?_single (ha : a ≠ 0) : ofMat? (Mat.single a) = some ⟨[0], Mat.single a, false⟩ := by
  have hfull : Mat.ofFn 1 1 (fun i j => if j ≤ i then Mat.single a i j else Mat.single a j i) =
      Mat.single a := by
    refine Mat.eq_single rfl rfl ?_
    rw [Mat.get_ofFn _ (by omega) (by omega)]
    simp
  unfold ofMat?
  dsimp only [Mat.rows_single]
  rw [hfull]
  simp [List.range_succ, step_single ha]

theorem ofScientific_eq_div (m e : ℕ) : (OfScientific.ofScientific m true e : ℝ) = m / 10 ^ e := by
  have hrat : ((OfScientific.ofScientific m true e : ℚ) : ℝ) = OfScientific.ofScientific m true e :=
    Rat.cast_ofScientific m true e
  have hvalue : (OfScientific.ofScientific m true e : ℚ) = Rat.ofScientific m true e := rfl
  rw [← hrat, hvalue, Rat.ofScientific_true_def, Rat.mkRat_eq_div]
  push_cast
  rfl

theorem tiny_eq : (tiny : Exact) = .real ((22250738585072014 : ℕ) / 10 ^ 324) :=
  congrArg Exact.real (ofScientific_eq_div 22250738585072014 324)

theorem ne_zero_of_tiny_lt (ha : (tiny : Exact) < .real |a|) : a ≠ 0 := by
  rw [tiny_eq, Exact.real_lt_real] at ha
  exact abs_pos.1 (lt_trans (by positivity) ha)

theorem tiny_lt_of_micro (ha : 1 / 10 ^ 6 ≤ |a|) : (tiny : Exact) < .real |a| := by
  rw [tiny_eq, Exact.real_lt_real]
  have hpow : (10 : ℝ) ^ 23 ≤ 10 ^ 324 := pow_le_pow_right₀ (by norm_num) (by norm_num)
  calc ((22250738585072014 : ℕ) : ℝ) / 10 ^ 324 ≤ (22250738585072014 : ℕ) / 10 ^ 23 :=
        div_le_div_of_nonneg_left (by norm_num) (by norm_num) hpow
    _ < 1 / 10 ^ 6 := by norm_num
    _ ≤ |a| := ha

theorem tiny_lt (ha : 1 / 10 ≤ |a|) : (tiny : Exact) < .real |a| :=
  tiny_lt_of_micro (le_trans (by norm_num) ha)

theorem solve_single (ha : (tiny : Exact) < .real |a|) (b : ℝ) :
    solve ⟨[0], Mat.single a, false⟩ (Vec.single b) = Vec.single (b / a) := by
  have hforward : forward (Mat.single a) 0 (Vec.single b) = Vec.single b := by
    refine Vec.eq_single (by simp [forward]) ?_
    rw [forward, Vec.get_set _ (by simp), if_pos rfl]
    simp [Scalar.sum]
  have hscale : scale (Mat.single a) (Vec.single b) = Vec.single (b / a) := by
    refine Vec.eq_single (by simp [scale]) ?_
    rw [scale, Vec.get_ofFn _ (by simp), Mat.get_single, Exact.real_abs, if_pos ha, Vec.get_single]
    exact Exact.real_div b (ne_zero_of_tiny_lt ha)
  have hbackward (c : ℝ) : backward (Mat.single a) 0 (Vec.single c) = Vec.single c := by
    refine Vec.eq_single (by simp [backward]) ?_
    rw [backward, Vec.get_set _ (by simp), if_pos rfl]
    simp [Scalar.sum]
  have hstart : Vec.ofFn 1 (fun i => Vec.single b ([0].getD i 0)) = Vec.single b := by
    refine Vec.eq_single (by simp) ?_
    rw [Vec.get_ofFn _ (by omega)]
    exact Vec.get_single b
  have hplace (c : ℝ) : (Vec.zero 1).set 0 (.real c) = Vec.single c := by
    refine Vec.eq_single (by simp) ?_
    rw [Vec.get_set _ (by simp), if_pos rfl]
  unfold solve
  dsimp only [Mat.rows_single]
  rw [hstart]
  simp [Nat.fold, hforward, hscale, hbackward, hplace, -Vec.zero_eq_ofReal]

theorem symmetric?_single (ha : (tiny : Exact) < .real |a|) :
    ∃ solver, LinearSolver.symmetric? (Mat.single a) = some solver ∧
      ∀ b, solver.solve (Vec.single b) = Vec.single (b / a) := by
  refine ⟨⟨solve ⟨[0], Mat.single a, false⟩⟩, ?_, solve_single ha⟩
  rw [LinearSolver.symmetric?, ofMat?_single (ne_zero_of_tiny_lt ha)]
  rfl

end Ldlt

end BinarySplitting
