import BinarySplitting.Proofs.Linear.Norms
import BinarySplitting.Proofs.Splitting.Line
import BinarySplitting.Proofs.Splitting.Support

/-!
# What a certificate proves

A direction `d` certifies with tolerance `t` when `|A'd| ≤ t |d|` and the bounds that `d` leans on
sum to less than `-t |d|`. At a vector `w` that keeps the bounds that sum is at least
`d'Aw = (A'd)'w ≥ -t |d| |w|₁`, so `|w|₁ > 1`. If moreover `i` is a constraint with `|d i| = |d|`, then
`w` has to keep only the others: its distance from the bound at `i` times `|d|` is made up for by the
rest, and is less than `t (|w|₁ - 1) |d|`. So there is no certificate where every side of every
constraint has a vector which keeps the others and stays away from this side by `t (|w|₁ - 1)`
(`Constraints.HasRoom`). A feasible vector with this distance from all bounds is enough, and so is any
feasible vector with `|w|₁ ≤ 1`.

Without room a feasible program can be reported as infeasible: with a row that is almost zero all
feasible vectors are far away, and the first change of the multipliers is a certificate.
-/

namespace BinarySplitting.Splitting

open Matrix

namespace Constraints

variable {c : Constraints Exact} {k n : ℕ} {A : Matrix (Fin k) (Fin n) ℝ} {d : Fin k → ℝ}

/-! ## Certificates -/

theorem isInfeasibleAlong_iff {y : Vec Exact} {tolerance : Exact} :
    c.isInfeasibleAlong y tolerance = true ↔ ¬ y.maxNorm ≤ 1e-30 ∧
      ∃ S, c.support? y y.size = some S ∧
        (c.rows.transpose.mulVec y).maxNorm ≤ tolerance * y.maxNorm ∧ S < -tolerance * y.maxNorm := by
  unfold isInfeasibleAlong
  dsimp only
  split
  · next hsmall => simp [hsmall]
  · next hlarge =>
    cases hS : c.support? y y.size with
    | none => simp
    | some S => simp [hlarge]

theorem exists_real_of_isInfeasibleAlong (hA : c.rows = Mat.ofReal A) (hn : 0 < n) {y : Vec Exact}
    {tolerance : Exact} (htolerance : 0.0 < tolerance) (h : c.isInfeasibleAlong y tolerance = true) :
    ∃ (d : Fin k → ℝ) (t : ℝ), y = Vec.ofReal d ∧ tolerance = .real t := by
  obtain ⟨hlarge, S, -, hforce, hapart⟩ := isInfeasibleAlong_iff.1 h
  rw [hA, Mat.transpose_ofReal] at hforce
  have hfirst := Vec.first_defined_of_maxNorm_le (by simpa using hn) hforce
  obtain ⟨hsize, hdefined⟩ := Mat.defined_of_mulVec hn hfirst
  have hnorm : y.maxNorm ≠ .undefined :=
    (Exact.defined_of_mul (Exact.defined_iff.1 (OrderedScalar.refl_of_le _ _ hforce).2)).2
  rw [Exact.zero_literal] at htolerance
  -- An infinite size or tolerance would leave the bounds nothing to be apart by.
  obtain ⟨r, hr, hpos⟩ : ∃ r, y.maxNorm = .real r ∧ 0 < r := by
    cases hsize : y.maxNorm with
    | undefined => exact absurd hsize hnorm
    | minusInfinity =>
      rw [hsize, Exact.literal] at hlarge
      exact absurd (Exact.minusInfinity_le_real _) hlarge
    | real r =>
      rw [hsize, Exact.literal, Exact.real_le_real, not_le] at hlarge
      exact ⟨r, rfl, lt_trans (by norm_num) hlarge⟩
    | plusInfinity =>
      rw [hsize] at hapart
      obtain ⟨t, rfl, ht⟩ | rfl := Exact.real_or_infinite_of_lt htolerance
      · rw [Exact.neg_real_mul_plusInfinity ht] at hapart
        exact absurd hapart (Exact.not_lt_minusInfinity S)
      · exact absurd hapart (Exact.not_lt_minusInfinity S)
  obtain ⟨d, rfl⟩ := Vec.eq_ofReal_of_maxNorm hsize (hsize ▸ hdefined) hr
  obtain ⟨t, rfl, -⟩ | rfl := Exact.real_or_infinite_of_lt htolerance
  · exact ⟨d, t, rfl, rfl⟩
  · have hinfinite : -Exact.plusInfinity * .real r = .minusInfinity := Exact.minusInfinity_mul_real hpos
    rw [hr, hinfinite] at hapart
    exact absurd hapart (Exact.not_lt_minusInfinity S)

theorem isInfeasibleAlong_ofReal_iff (hA : c.rows = Mat.ofReal A) {t : ℝ} :
    c.isInfeasibleAlong (Vec.ofReal d) (.real t) = true ↔ 1e-30 < ‖d‖ ∧ ‖Aᵀ *ᵥ d‖ ≤ t * ‖d‖ ∧
      ∃ s, c.support (Vec.ofReal d) = .real s ∧ s < -t * ‖d‖ := by
  rw [isInfeasibleAlong_iff, hA, Mat.transpose_ofReal, Mat.mulVec_ofReal, Vec.maxNorm_ofReal,
    Vec.maxNorm_ofReal, Vec.size_ofReal, Exact.literal, Exact.real_neg, Exact.real_mul, Exact.real_mul,
    Exact.real_le_real, Exact.real_le_real, not_le, ← exists_support?_lt_iff]
  constructor
  · rintro ⟨hlarge, S, hS, hforce, hapart⟩
    exact ⟨hlarge, hforce, S, hS, hapart⟩
  · rintro ⟨hlarge, hforce, S, hS, hapart⟩
    exact ⟨hlarge, S, hS, hforce, hapart⟩

/-- A direction takes from a vector at most the force that it exerts, times the vector's absolute sum. -/
theorem neg_le_dotProduct {e : ℝ} (hforce : ‖Aᵀ *ᵥ d‖ ≤ e) (w : Fin n → ℝ) :
    -(e * ∑ j, |w j|) ≤ d ⬝ᵥ (A *ᵥ w) := by
  have himage : d ⬝ᵥ (A *ᵥ w) = (Aᵀ *ᵥ d) ⬝ᵥ w := by
    rw [mulVec_transpose, ← dotProduct_mulVec]
  have hsum : 0 ≤ ∑ j, |w j| := Finset.sum_nonneg fun j _ => abs_nonneg (w j)
  calc -(e * ∑ j, |w j|) ≤ -(‖Aᵀ *ᵥ d‖ * ∑ j, |w j|) := neg_le_neg (mul_le_mul_of_nonneg_right hforce hsum)
    _ ≤ -|(Aᵀ *ᵥ d) ⬝ᵥ w| := neg_le_neg (abs_dotProduct_le _ w)
    _ ≤ (Aᵀ *ᵥ d) ⬝ᵥ w := neg_abs_le _
    _ = d ⬝ᵥ (A *ᵥ w) := himage.symm

/-- A support below zero is made up for by the force that the direction exerts on a feasible vector. -/
theorem neg_support_le {s e : ℝ} (hs : c.support (Vec.ofReal d) = .real s) (hforce : ‖Aᵀ *ᵥ d‖ ≤ e)
    {w : Fin n → ℝ} (hw : c.Admits (A *ᵥ w)) : -s ≤ e * ∑ j, |w j| := by
  have hreach := neg_le_dotProduct hforce w
  have hsupport := hw.dotProduct_le_support hs
  linarith

theorem one_lt_of_isInfeasibleAlong (hA : c.rows = Mat.ofReal A) {t : ℝ} (ht : 0 < t)
    (h : c.isInfeasibleAlong (Vec.ofReal d) (.real t) = true) {w : Fin n → ℝ} (hw : c.Admits (A *ᵥ w)) :
    1 < ∑ j, |w j| := by
  obtain ⟨hlarge, hforce, s, hs, hapart⟩ := (isInfeasibleAlong_ofReal_iff hA).1 h
  have hpos : 0 < ‖d‖ := lt_trans (by norm_num) hlarge
  have hreach := neg_support_le hs hforce hw
  have hstrict : t * ‖d‖ * 1 < t * ‖d‖ * ∑ j, |w j| := by linarith
  exact lt_of_mul_lt_mul_left hstrict (mul_pos ht hpos).le

end Constraints

/-! ## Room at the bounds -/

section generic

variable {α : Type} [Scalar α]

/-- A finite vector that keeps all constraints but one. -/
structure Constraints.IsKeptBut (c : Constraints α) (i : ℕ) (w : Vec α) : Prop where
  size : w.size = c.rows.cols
  finite : w.allFinite = true
  others : ∀ j < c.size, j ≠ i → c.lower j ≤ c.rows.mulVec w j ∧ c.rows.mulVec w j ≤ c.upper j

/-- At each side of each constraint some vector keeps all other constraints and stays away from this side by the
tolerance times what its absolute sum has above one. It may be past the other side of the constraint, so there can be
room at the two sides of an equation. -/
structure Constraints.HasRoom (c : Constraints α) (tolerance : α) : Prop where
  below : ∀ i < c.size, ∃ w, c.IsKeptBut i w ∧ c.rows.mulVec w i + tolerance * (w.absSum - 1.0) ≤ c.upper i
  above : ∀ i < c.size, ∃ w, c.IsKeptBut i w ∧ c.lower i ≤ c.rows.mulVec w i - tolerance * (w.absSum - 1.0)

end generic

namespace Constraints

variable {c : Constraints Exact} {k n : ℕ} {A : Matrix (Fin k) (Fin n) ℝ}

theorem size_of_rows (hA : c.rows = Mat.ofReal A) : c.size = k := by
  rw [size, hA, Mat.rows_ofReal]

theorem IsKeptBut.exists_ofReal (hA : c.rows = Mat.ofReal A) {i : Fin k} {w : Vec Exact} (h : c.IsKeptBut i w) :
    ∃ v : Fin n → ℝ, w = Vec.ofReal v ∧
      ∀ j ≠ i, c.lower j ≤ .real ((A *ᵥ v) j) ∧ .real ((A *ᵥ v) j) ≤ c.upper j := by
  have hsize : w.size = n := by rw [h.size, hA, Mat.cols_ofReal]
  obtain ⟨v, rfl⟩ := Vec.eq_ofReal hsize h.finite
  refine ⟨v, rfl, fun j hj => ?_⟩
  have hkept := h.others j (j.isLt.trans_eq (size_of_rows hA).symm) (Fin.val_ne_of_ne hj)
  rwa [hA, Mat.mulVec_ofReal, Vec.get_ofReal_fin] at hkept

theorem isKeptBut_ofReal (hA : c.rows = Mat.ofReal A) {i : ℕ} {v : Fin n → ℝ}
    (h : ∀ j : Fin k, ↑j ≠ i → c.lower j ≤ .real ((A *ᵥ v) j) ∧ .real ((A *ᵥ v) j) ≤ c.upper j) :
    c.IsKeptBut i (Vec.ofReal v) := by
  refine ⟨by rw [hA, Vec.size_ofReal, Mat.cols_ofReal], Vec.allFinite_ofReal v, fun j hj hne => ?_⟩
  rw [size_of_rows hA] at hj
  rw [hA, Mat.mulVec_ofReal, Vec.get_ofReal _ hj]
  exact h ⟨j, hj⟩ hne

/-- With room at a constraint where the direction is greatest, some vector has the needed distance from the bound
that the direction leans on there. -/
theorem HasRoom.exists_distance {t : ℝ} (hroom : c.HasRoom (.real t)) (hA : c.rows = Mat.ofReal A)
    {d b : Fin k → ℝ} (hb : c.LeansOn d b) {i : Fin k} (hpos : 0 < |d i|) :
    ∃ v : Fin n → ℝ, (∀ j ≠ i, c.lower j ≤ .real ((A *ᵥ v) j) ∧ .real ((A *ᵥ v) j) ≤ c.upper j) ∧
      d i * ((A *ᵥ v) i - b i) ≤ -(|d i| * (t * (∑ j, |v j| - 1))) := by
  have hi : (i : ℕ) < c.size := i.isLt.trans_eq (size_of_rows hA).symm
  rcases lt_or_gt_of_ne (abs_pos.1 hpos) with hneg | hpos
  · obtain ⟨w, hkept, haway⟩ := hroom.above i hi
    obtain ⟨v, rfl, hothers⟩ := hkept.exists_ofReal hA
    rw [hA, Mat.mulVec_ofReal, Vec.get_ofReal_fin, Vec.absSum_ofReal, Exact.one_literal, Exact.real_sub,
      Exact.real_mul, Exact.real_sub, hb.lower i hneg, Exact.real_le_real] at haway
    refine ⟨v, hothers, ?_⟩
    rw [abs_of_neg hneg, neg_mul, neg_neg]
    exact mul_le_mul_of_nonpos_left (by linarith) hneg.le
  · obtain ⟨w, hkept, haway⟩ := hroom.below i hi
    obtain ⟨v, rfl, hothers⟩ := hkept.exists_ofReal hA
    rw [hA, Mat.mulVec_ofReal, Vec.get_ofReal_fin, Vec.absSum_ofReal, Exact.one_literal, Exact.real_sub,
      Exact.real_mul, Exact.real_add, hb.upper i hpos, Exact.real_le_real] at haway
    refine ⟨v, hothers, ?_⟩
    rw [abs_of_pos hpos, ← mul_neg]
    exact mul_le_mul_of_nonneg_left (by linarith) hpos.le

theorem HasRoom.not_isInfeasibleAlong {t : ℝ} (hroom : c.HasRoom (.real t)) (hA : c.rows = Mat.ofReal A)
    (d : Fin k → ℝ) : ¬ c.isInfeasibleAlong (Vec.ofReal d) (.real t) = true := by
  intro h
  obtain ⟨hlarge, hforce, s, hs, hapart⟩ := (isInfeasibleAlong_ofReal_iff hA).1 h
  have hpos : 0 < ‖d‖ := lt_trans (by norm_num) hlarge
  obtain ⟨b, hb, rfl⟩ := support_eq_real_iff.1 hs
  obtain ⟨i, hi⟩ := exists_abs_eq_norm hpos
  obtain ⟨v, hothers, haway⟩ := hroom.exists_distance hA hb (hi ▸ hpos)
  rw [hi] at haway
  have hreach : -(t * ‖d‖ * ∑ j, |v j|) ≤ b ⬝ᵥ d - ‖d‖ * (t * (∑ j, |v j| - 1)) := by
    calc -(t * ‖d‖ * ∑ j, |v j|) ≤ d ⬝ᵥ (A *ᵥ v) := neg_le_dotProduct hforce v
      _ ≤ d ⬝ᵥ b + d i * ((A *ᵥ v) i - b i) := hb.dotProduct_le_add hothers
      _ ≤ d ⬝ᵥ b - ‖d‖ * (t * (∑ j, |v j| - 1)) := by linarith
      _ = b ⬝ᵥ d - ‖d‖ * (t * (∑ j, |v j| - 1)) := by rw [dotProduct_comm]
  have hgap : ‖d‖ * (t * (∑ j, |v j| - 1)) = t * ‖d‖ * ∑ j, |v j| - t * ‖d‖ := by ring
  linarith

/-! ## Feasible programs -/

section feasible

variable {p : Program Exact} {w : Vec Exact}

theorem HasRoom.of_distance (R : p.Reals) (hw : p.IsFeasible w) {tolerance : Exact}
    (haway : ∀ i < (ofProgram p).size,
      (ofProgram p).rows.mulVec w i + tolerance * (w.absSum - 1.0) ≤ (ofProgram p).upper i ∧
        (ofProgram p).lower i ≤ (ofProgram p).rows.mulVec w i - tolerance * (w.absSum - 1.0)) :
    (ofProgram p).HasRoom tolerance := by
  have hkept (i : ℕ) : (ofProgram p).IsKeptBut i w := by
    obtain ⟨v, rfl⟩ := hw.exists_ofReal rfl
    exact isKeptBut_ofReal R.rows_ofProgram fun j _ => (R.isFeasible_iff v).1 hw j
  exact ⟨fun i hi => ⟨w, hkept i, (haway i hi).1⟩, fun i hi => ⟨w, hkept i, (haway i hi).2⟩⟩

theorem HasRoom.of_absSum_le (R : p.Reals) (hw : p.IsFeasible w) (hsmall : w.absSum ≤ 1.0) {t : ℝ} (ht : 0 ≤ t) :
    (ofProgram p).HasRoom (.real t) := by
  obtain ⟨v, rfl⟩ := hw.exists_ofReal rfl
  rw [Vec.absSum_ofReal, Exact.one_literal, Exact.real_le_real] at hsmall
  have hmargin : t * (∑ j, |v j| - 1) ≤ 0 := mul_nonpos_of_nonneg_of_nonpos ht (by linarith)
  refine HasRoom.of_distance R hw fun i hi => ?_
  rw [size_of_rows R.rows_ofProgram] at hi
  obtain ⟨hlower, hupper⟩ := (R.isFeasible_iff v).1 hw ⟨i, hi⟩
  rw [R.rows_ofProgram, Mat.mulVec_ofReal, Vec.get_ofReal _ hi, Vec.absSum_ofReal, Exact.one_literal,
    Exact.real_sub, Exact.real_mul, Exact.real_add, Exact.real_sub]
  constructor
  · exact OrderedScalar.trans _ _ _ (Exact.real_le_real.2 (by linarith)) hupper
  · exact OrderedScalar.trans _ _ _ hlower (Exact.real_le_real.2 (by linarith))

end feasible

end Constraints

/-- A feasible program with room at its bounds is never said to have no feasible vector. An infinite tolerance
certifies nothing, and needs no room. -/
theorem Solver.solve_not_infeasible (kernels : Kernels Exact) (clock : ℕ → Exact) (solver : Solver Exact)
    (p : Program Exact) {w : Vec Exact} (hw : p.IsFeasible w) (htolerance : 0.0 < solver.settings.infeasibility)
    (hroom : solver.settings.infeasibility < Scalar.infinity →
      (Constraints.ofProgram p).HasRoom solver.settings.infeasibility) :
    ¬ ∃ failure, (solver.solve kernels clock p).result = .error failure ∧ failure.kind = .infeasible := by
  rintro ⟨failure, hfailure, hkind⟩
  obtain ⟨hcheck, hpos, hreason⟩ := solve_infeasible hfailure hkind
  obtain ⟨R⟩ := Program.exists_reals hcheck
  obtain ⟨v, rfl⟩ := hw.exists_ofReal rfl
  obtain ⟨i, hcrossed⟩ | ⟨y, hcertificate⟩ := hreason
  · have hnone := Constraints.not_crossed ((R.isFeasible_iff v).1 hw) rfl
    cases hcrossed.symm.trans hnone
  · obtain ⟨d, t, rfl, ht⟩ :=
      Constraints.exists_real_of_isInfeasibleAlong R.rows_ofProgram hpos htolerance hcertificate
    rw [ht] at hroom hcertificate
    exact (hroom (Exact.real_lt_plusInfinity t)).not_isInfeasibleAlong R.rows_ofProgram d hcertificate

theorem Settings.standard_infeasibility_pos : 0.0 < (standard : Settings Exact).infeasibility := by
  have hvalue : (standard : Settings Exact).infeasibility = .real 1e-6 := rfl
  rw [hvalue, Exact.zero_literal, Exact.real_lt_real]
  norm_num

/-- The equation `w = v` for a variable between zero and `u`. -/
def equation (v u : ℝ) : Program Exact := { Program.line 0 0 1 v (.real u) with rowUpper := .single v }

section equation

variable {v u : ℝ}

theorem isFeasible_equation (hv : 0 ≤ v) (hu : v ≤ u) : (equation v u).IsFeasible (.single v) := by
  have hline := (Program.isFeasible_line_iff 0 0 1 v (.real u) v).2 ⟨(one_mul v).ge, hv, Exact.real_le_real.2 hu⟩
  refine ⟨hline.size, hline.finite, fun i hi => ⟨(hline.rows i hi).1, ?_⟩, hline.bounds⟩
  obtain rfl : i = 0 := Nat.lt_one_iff.1 hi
  have himage : (equation v u).rows.mulVec (.single v) = .single (1 * v) := Program.mulVec_line 0 0 1 v (.real u) v
  rw [himage]
  exact Exact.real_le_real.2 (one_mul v).le

namespace Constraints

theorem rows_equation : (ofProgram (equation v u)).rows =
    Mat.ofReal (Matrix.of fun (i : Fin 2) (_ : Fin 1) => if i = 0 then 1 else 1) :=
  Program.rows_line 0 0 1 v (.real u)

theorem image_equation {i : ℕ} (hi : i < 2) (w : ℝ) :
    (ofProgram (equation v u)).rows.mulVec (.single w) i = .real w := by
  rw [rows_equation, Vec.single_eq_ofReal fun _ => w, Mat.mulVec_ofReal, Vec.get_ofReal _ hi]
  simp [mulVec, dotProduct]

theorem isKeptBut_equation {i : ℕ} {w : ℝ} (hrow : i = 0 ∨ w = v) (hlower : 0 ≤ w) (hupper : w ≤ u) :
    (ofProgram (equation v u)).IsKeptBut i (.single w) := by
  refine ⟨rfl, ?_, fun j hj hne => ?_⟩
  · rw [Vec.single_eq_ofReal fun _ => w]
    exact Vec.allFinite_ofReal _
  · rw [size_of_rows rows_equation] at hj
    rw [image_equation hj]
    obtain rfl | rfl : j = 0 ∨ j = 1 := Nat.le_one_iff_eq_zero_or_eq_one.1 (Nat.lt_succ_iff.1 hj)
    · obtain rfl := hrow.resolve_left hne.symm
      exact ⟨Exact.real_le_real.2 le_rfl, Exact.real_le_real.2 le_rfl⟩
    · exact ⟨Exact.real_le_real.2 hlower, Exact.real_le_real.2 hupper⟩

/-- There is room at the two sides of the equation, at one and at three. -/
theorem hasRoom_equation : (ofProgram (equation 2 4)).HasRoom (.real 1e-6) := by
  have hmargin (w : ℝ) : Exact.real 1e-6 * ((Vec.single w).absSum - 1.0) = .real (1e-6 * (|w| - 1)) := by
    rw [Vec.single_eq_ofReal fun _ => w, Vec.absSum_ofReal, Exact.one_literal, Exact.real_sub, Exact.real_mul,
      Fin.sum_univ_one]
  refine ⟨fun i hi => ?_, fun i hi => ?_⟩
  all_goals
    rw [size_of_rows rows_equation] at hi
    obtain rfl | rfl : i = 0 ∨ i = 1 := Nat.le_one_iff_eq_zero_or_eq_one.1 (Nat.lt_succ_iff.1 hi)
  · refine ⟨.single 1, isKeptBut_equation (Or.inl rfl) (by norm_num) (by norm_num), ?_⟩
    rw [image_equation hi, hmargin, Exact.real_add]
    exact Exact.real_le_real.2 (by norm_num)
  · refine ⟨.single 2, isKeptBut_equation (Or.inr rfl) (by norm_num) (by norm_num), ?_⟩
    rw [image_equation hi, hmargin, Exact.real_add]
    exact Exact.real_le_real.2 (by norm_num)
  · refine ⟨.single 3, isKeptBut_equation (Or.inl rfl) (by norm_num) (by norm_num), ?_⟩
    rw [image_equation hi, hmargin, Exact.real_sub]
    exact Exact.real_le_real.2 (by norm_num)
  · refine ⟨.single 2, isKeptBut_equation (Or.inr rfl) (by norm_num) (by norm_num), ?_⟩
    rw [image_equation hi, hmargin, Exact.real_sub]
    exact Exact.real_le_real.2 (by norm_num)

end Constraints

end equation

theorem Solver.solve_not_infeasible_equation :
    ((equation 2 4).IsFeasible (.single 2) ∧ 0.0 < (Settings.standard : Settings Exact).infeasibility ∧
        (Constraints.ofProgram (equation 2 4)).HasRoom (Settings.standard : Settings Exact).infeasibility) ∧
      ¬ ∃ failure, ((⟨Settings.standard⟩ : Solver Exact).solve .standard (fun _ => 0.0) (equation 2 4)).result =
          .error failure ∧ failure.kind = .infeasible := by
  have htolerance := Settings.standard_infeasibility_pos
  have hfeasible := isFeasible_equation (v := 2) (u := 4) (by norm_num) (by norm_num)
  exact ⟨⟨hfeasible, htolerance, Constraints.hasRoom_equation⟩,
    Solver.solve_not_infeasible .standard _ ⟨Settings.standard⟩ _ hfeasible htolerance
      fun _ => Constraints.hasRoom_equation⟩

/-! ## Feasible vectors further away -/

section line

variable {h f a bound : ℝ} {upper : Exact} {z : Fin 2 → ℝ}

theorem nearest_zero_line (hbound : 0 < bound)
    (hz : (Constraints.ofProgram (Program.line h f a bound upper)).IsNearest 0 z) : z 0 = bound ∧ z 1 = 0 := by
  have hlower (i : Fin 2) (hi : 0 < z i) :
      (Constraints.ofProgram (Program.line h f a bound upper)).lower i = .real (z i) := hz.raised i hi
  constructor
  · have hle : bound ≤ z 0 := Exact.real_le_real.1 (hz.admits 0).1
    exact (Exact.real_inj.1 (hlower 0 (hbound.trans_le hle))).symm
  · have hle : 0 ≤ z 1 := Exact.real_le_real.1 (hz.admits 1).1
    by_contra hne
    exact hne (Exact.real_inj.1 (hlower 1 (lt_of_le_of_ne hle (Ne.symm hne)))).symm

/-- The first change of the multipliers is a certificate when the row is almost zero. -/
theorem isInfeasibleAlong_line {ρ t : ℝ} (hρ : 0 < ρ) (ha : |a| ≤ t) (hbound : t < bound)
    (hlarge : 1e-30 < ρ * bound)
    (hz : (Constraints.ofProgram (Program.line h f a bound upper)).IsNearest 0 z) :
    (Constraints.ofProgram (Program.line h f a bound upper)).isInfeasibleAlong
      (.ofReal (ρ • (0 - z))) (.real t) = true := by
  have hpos : 0 < bound := lt_of_le_of_lt ((abs_nonneg a).trans ha) hbound
  obtain ⟨hfirst, hsecond⟩ := nearest_zero_line hpos hz
  have hnorm : ‖z‖ = bound := by
    rw [norm_fin_two, hfirst, hsecond, abs_zero, abs_of_pos hpos, max_eq_left hpos.le]
  have hsize : ‖ρ • (0 - z)‖ = ρ * bound := by
    rw [norm_smul, zero_sub, norm_neg, hnorm, Real.norm_of_nonneg hρ.le]
  rw [Constraints.isInfeasibleAlong_ofReal_iff (Program.rows_line h f a bound upper), hsize]
  have hscale : 0 ≤ ρ * bound := (mul_pos hρ hpos).le
  refine ⟨hlarge, ?_, _, (hz.isNormal hρ).support, ?_⟩
  · refine (pi_norm_le_iff_of_nonneg (mul_nonneg ((abs_nonneg a).trans ha) hscale)).2 fun j => ?_
    have hentry : ((Matrix.of fun (i : Fin 2) (_ : Fin 1) => if i = 0 then a else 1)ᵀ *ᵥ (ρ • (0 - z))) j =
        -(a * (ρ * bound)) := by
      simp [mulVec, dotProduct, Fin.sum_univ_two, hfirst, hsecond]
    rw [hentry, norm_neg, norm_mul, Real.norm_eq_abs, Real.norm_of_nonneg hscale]
    exact mul_le_mul_of_nonneg_right ha hscale
  · have hsum : z ⬝ᵥ (ρ • (0 - z)) = -bound * (ρ * bound) := by
      simp [dotProduct, Fin.sum_univ_two, hfirst, hsecond]
    rw [hsum]
    exact mul_lt_mul_of_pos_right (neg_lt_neg hbound) (mul_pos hρ hpos)

/-- **A program whose feasible vectors are far away is said to have none**, in the first iteration. -/
theorem Solver.solve_line_certificate (ha : |a| ≤ 1e-6) (hbound : 1e-6 < bound) :
    ((⟨Settings.standard⟩ : Solver Exact).solve .standard (fun _ => 0.0)
      (Program.line 0 0 a bound .plusInfinity)).result = .error (.certificate 0) := by
  let R := Program.lineReals 0 0 a bound .plusInfinity
  let s := System.ofProgram (Program.line 0 0 a bound .plusInfinity)
  have hordered : (Constraints.ofProgram (Program.line 0 0 a bound .plusInfinity)).Ordered 2 :=
    Program.ordered_line 0 0 a bound _ (Exact.real_le_plusInfinity 0)
  have hsystem : 1 / 10 ≤ |0 + 1e-6 + 0.1 * (a * a + 1)| := by
    have hsquare := mul_self_nonneg a
    rw [abs_of_pos (by linarith)]
    linarith
  obtain ⟨l, hstart, hpoint, hrho, hsolved⟩ := Program.start?_line 0 0 a bound .plusInfinity
    Settings.standard rfl rfl hsystem
  have hzero : l.solved s Settings.standard =
      .ofReal (0 : Fin (Program.line 0 0 a bound .plusInfinity).dimension → ℝ) := by
    refine hsolved.trans ?_
    rw [neg_zero, zero_div]
    exact Vec.single_eq_ofReal 0
  obtain ⟨z, hz, hmoved⟩ := Loop.moved_start R hordered (a := 1.6) rfl (by norm_num) hpoint hrho hzero
  simp only [mulVec_zero, smul_zero] at hz hmoved
  have hcertificate : s.constraints.isInfeasibleAlong (l.moved s Settings.standard).point.dy (.real 1e-6) =
      true := by
    rw [hmoved]
    exact isInfeasibleAlong_line (by norm_num) ha hbound (by linarith) hz
  have hcheck : (l.moved s Settings.standard).check Kernels.standard.symmetric? s Settings.standard 0.0 =
      .error (.certificate, l.moved s Settings.standard) := by
    have htime : ¬ (Settings.standard : Settings Exact).timeLimit ≤ 0.0 := by
      rw [Exact.zero_literal]
      exact Exact.not_plusInfinity_le_real 0
    unfold Loop.check
    rw [if_neg htime]
    exact if_pos hcertificate
  obtain ⟨-, hsolve⟩ := Solver.solve_of_first_check .standard (fun _ => 0.0) ⟨Settings.standard⟩ R Nat.one_pos
    hordered hstart (by decide) hcheck
  rw [hsolve]
  rfl

end line

theorem Solver.solve_line_infeasible :
    ((Program.line 0 0 5e-7 2e-6 .plusInfinity).IsFeasible (.single 4) ∧
        0.0 < (Settings.standard : Settings Exact).infeasibility) ∧
      ∃ failure, ((⟨Settings.standard⟩ : Solver Exact).solve .standard (fun _ => 0.0)
          (Program.line 0 0 5e-7 2e-6 .plusInfinity)).result = .error failure ∧ failure.kind = .infeasible := by
  have hw : (Program.line 0 0 5e-7 2e-6 .plusInfinity).IsFeasible (.single 4) :=
    (Program.isFeasible_line_iff 0 0 5e-7 2e-6 _ 4).2
      ⟨by norm_num, by norm_num, Exact.real_le_plusInfinity 4⟩
  have hrow : |(5e-7 : ℝ)| ≤ 1e-6 := by norm_num [abs_of_pos]
  have hbound : (1e-6 : ℝ) < 2e-6 := by norm_num
  exact ⟨⟨hw, Settings.standard_infeasibility_pos⟩, .certificate 0,
    Solver.solve_line_certificate hrow hbound, rfl⟩

end BinarySplitting.Splitting
