import Mathlib.Data.Matrix.ColumnRowPartitioned
import BinarySplitting.Splitting.Iteration
import BinarySplitting.Proofs.Linear.Blocks
import BinarySplitting.Proofs.Linear.Norms
import BinarySplitting.Proofs.Splitting.Minimiser

/-!
# Checked programs over the reals

The data of a program that passes the check are real (`Program.Reals`, `Program.exists_reals`); the
bounds alone may be infinite. Its constraints are then one real matrix, the rows above the identity
(`Program.Reals.stacked`), and a vector is feasible when its image under this matrix is between the
bounds. The violation measures how far it is past them (`Program.Reals.maxViolation_eq_zero_iff`).
-/

namespace BinarySplitting

open Matrix
open Splitting (Constraints)

def Splitting.Constraints.Admits {k : ℕ} (c : Constraints Exact) (a : Fin k → ℝ) : Prop :=
  ∀ i : Fin k, c.lower i ≤ .real (a i) ∧ .real (a i) ≤ c.upper i

theorem Splitting.Constraints.crossed?_eq_none_iff {c : Constraints Exact} :
    c.crossed? = none ↔ ∀ i < c.size, ¬ c.upper i < c.lower i := by
  unfold crossed?
  rw [List.find?_eq_none]
  refine forall_congr' fun i => ?_
  rw [List.mem_range, decide_eq_true_eq]

theorem Splitting.Constraints.not_crossed {k : ℕ} {c : Constraints Exact} {a : Fin k → ℝ} (ha : c.Admits a)
    (hsize : c.size = k) : c.crossed? = none := by
  refine crossed?_eq_none_iff.2 fun i hi hcrossed => ?_
  rw [hsize] at hi
  obtain ⟨hlower, hupper⟩ := ha ⟨i, hi⟩
  exact OrderedScalar.not_le_of_lt hcrossed (OrderedScalar.trans _ _ _ hlower hupper)

namespace Program

section generic

variable {α : Type} [Scalar α] [OrderedScalar α]

/-- The worst excess is the excess at some bound, or the least value; an undefined one is passed over. -/
theorem worstExcess_le {n : ℕ} {least c : α} {v lower upper : Vec α} (hn : 0 < n) (hv : v.size = n)
    (hlower : lower.size = n) (hupper : upper.size = n) (hleast : least ≤ c)
    (h : ∀ i < n, (lower i - v i ≤ lower i - v i → lower i - v i ≤ c) ∧
      (v i - upper i ≤ v i - upper i → v i - upper i ≤ c)) :
    worstExcess least v lower upper ≤ c := by
  have hsizes : (lower - v).size = n ∧ (v - upper).size = n := by simp [hv, hlower, hupper]
  have hentry : ∀ i < n, (lower - v) i = lower i - v i ∧ (v - upper) i = v i - upper i := fun i hi =>
    ⟨Vec.get_zip _ (by omega), Vec.get_zip _ (by omega)⟩
  refine Scalar.larger_le_of_defined (Scalar.larger_le_of_defined hleast ?_) ?_
  · refine Scalar.greatest_le_of_defined fun i hi => ?_
    rw [hsizes.1] at hi
    rw [(hentry i (by omega)).1]
    exact (h i (by omega)).1
  · refine Scalar.greatest_le_of_defined fun i hi => ?_
    rw [hsizes.2] at hi
    rw [(hentry i (by omega)).2]
    exact (h i (by omega)).2

theorem least_le_of_worstExcess_le {least c : α} {v lower upper : Vec α}
    (h : worstExcess least v lower upper ≤ c) : least ≤ c :=
  Scalar.left_le_of_larger_le (Scalar.left_le_of_larger_le h)

theorem excess_le_of_worstExcess_le {n : ℕ} {least c : α} {v lower upper : Vec α} (hn : 0 < n) (hv : v.size = n)
    (hlower : lower.size = n) (hupper : upper.size = n)
    (hdefined : ∀ i < n, lower i - v i ≤ lower i - v i ∧ v i - upper i ≤ v i - upper i)
    (h : worstExcess least v lower upper ≤ c) : ∀ i < n, lower i - v i ≤ c ∧ v i - upper i ≤ c := by
  have hsizes : (lower - v).size = n ∧ (v - upper).size = n := by simp [hv, hlower, hupper]
  have hentry : ∀ i < n, (lower - v) i = lower i - v i ∧ (v - upper) i = v i - upper i := fun i hi =>
    ⟨Vec.get_sub (by omega), Vec.get_sub (by omega)⟩
  have hbelow : (lower - v).maximum ≤ (lower - v).maximum := by
    refine Scalar.greatest_defined fun i hi => ?_
    rw [(hentry i (by omega)).1]
    exact (hdefined i (by omega)).1
  have habove : (v - upper).maximum ≤ (v - upper).maximum := by
    refine Scalar.greatest_defined fun i hi => ?_
    rw [(hentry i (by omega)).2]
    exact (hdefined i (by omega)).2
  have hbelow' := Scalar.right_le_of_larger_le (Scalar.left_le_of_larger_le h) hbelow
  have habove' := Scalar.right_le_of_larger_le h habove
  intro i hi
  obtain ⟨hlow, hhigh⟩ := hentry i hi
  constructor
  · rw [← hlow]
    exact Scalar.le_of_greatest_le hbelow' (by omega) (hlow ▸ (hdefined i hi).1)
  · rw [← hhigh]
    exact Scalar.le_of_greatest_le habove' (by omega) (hhigh ▸ (hdefined i hi).2)

/-- The greatest amount by which a row is past a bound. -/
def rowExcess (p : Program α) (w : Vec α) : α :=
  if p.numRows = 0 then 0.0 else worstExcess 0.0 (p.rows.mulVec w) p.rowLower p.rowUpper

omit [OrderedScalar α] in
theorem maxViolation_eq (p : Program α) (w : Vec α) : p.maxViolation w =
    if p.dimension = 0 then p.rowExcess w else worstExcess (p.rowExcess w) w p.lower p.upper := rfl

theorem maxViolation_le_infinity {p : Program α} (hzero : (0.0 : α) ≤ 0.0) (w : Vec α) :
    p.maxViolation w ≤ Scalar.infinity := by
  have hworst : ∀ {least : α} (v lower upper : Vec α), least ≤ Scalar.infinity →
      worstExcess least v lower upper ≤ Scalar.infinity := fun v lower upper hleast =>
    Scalar.larger_le_of_defined (Scalar.larger_le_of_defined hleast (OrderedScalar.le_infinity _))
      (OrderedScalar.le_infinity _)
  have hleast : (0.0 : α) ≤ Scalar.infinity := OrderedScalar.le_infinity _ hzero
  have hrows : p.rowExcess w ≤ Scalar.infinity := by
    unfold rowExcess
    split
    · exact hleast
    · exact hworst _ _ _ hleast
  rw [maxViolation_eq]
  split
  · exact hrows
  · exact hworst _ _ _ hrows

theorem rowExcess_le_of_maxViolation_le {p : Program α} {w : Vec α} {c : α} (h : p.maxViolation w ≤ c) :
    p.rowExcess w ≤ c := by
  rw [maxViolation_eq] at h
  split at h
  · exact h
  · exact least_le_of_worstExcess_le h

theorem zero_le_maxViolation {p : Program α} (hzero : (0.0 : α) ≤ 0.0) (w : Vec α) : 0.0 ≤ p.maxViolation w := by
  have hdefined := (OrderedScalar.refl_of_le _ _ (maxViolation_le_infinity (p := p) hzero w)).1
  have hrows := rowExcess_le_of_maxViolation_le hdefined
  unfold rowExcess at hrows
  split at hrows
  · exact hrows
  · exact least_le_of_worstExcess_le hrows

end generic

variable {p : Program Exact}

structure Reals (p : Program Exact) where
  H : Matrix (Fin p.dimension) (Fin p.dimension) ℝ
  f : Fin p.dimension → ℝ
  A : Matrix (Fin p.numRows) (Fin p.dimension) ℝ
  quadratic_eq : p.quadratic = Mat.ofReal H
  linear_eq : p.linear = Vec.ofReal f
  rows_eq : 0 < p.numRows → p.rows = Mat.ofReal A
  rowUpper_size : p.rowUpper.size = p.numRows
  lower_size : p.lower.size = p.dimension
  upper_size : p.upper.size = p.dimension

theorem exists_reals (h : Splitting.check p = .ok ()) : Nonempty p.Reals := by
  unfold Splitting.check at h
  dsimp only at h
  split at h
  · cases h
  next hshape =>
  split at h
  · cases h
  next hsizes =>
  split at h
  · cases h
  next hrows =>
  split at h
  · contradiction
  next hfinite =>
  simp only [Bool.not_eq_true', Bool.not_eq_false, not_or, not_and, not_not] at hshape hsizes hrows hfinite
  obtain ⟨hquadratic, hlinear, hmatrix⟩ := hfinite
  obtain ⟨H, hH⟩ := Mat.eq_ofReal hshape hquadratic
  obtain ⟨f, hf⟩ := Vec.eq_ofReal (n := p.dimension) rfl hlinear
  have hreal : ∃ A : Matrix (Fin p.numRows) (Fin p.dimension) ℝ, 0 < p.numRows → p.rows = Mat.ofReal A := by
    by_cases hm : 0 < p.numRows
    · obtain ⟨A, hA⟩ := Mat.eq_ofReal (hrows.2 hm) (hmatrix hm)
      exact ⟨A, fun _ => hA⟩
    · exact ⟨0, fun h' => absurd h' hm⟩
  obtain ⟨A, hA⟩ := hreal
  exact ⟨⟨H, f, A, hH, hf, hA, hrows.1, hsizes.1, hsizes.2⟩⟩

namespace Reals

theorem check (R : p.Reals) : Splitting.check p = .ok () := by
  have hrows : 0 < p.numRows → p.rows.hasShape p.numRows p.dimension = true ∧ p.rows.allFinite = true := by
    intro hm
    rw [R.rows_eq hm]
    exact ⟨by simp [Mat.hasShape], Mat.allFinite_ofReal _⟩
  have hshape : p.quadratic.hasShape p.dimension p.dimension = true := by
    rw [R.quadratic_eq]
    simp [Mat.hasShape]
  have hquadratic : p.quadratic.allFinite = true := by
    rw [R.quadratic_eq]
    exact Mat.allFinite_ofReal _
  have hlinear : p.linear.allFinite = true := by
    rw [R.linear_eq]
    exact Vec.allFinite_ofReal _
  unfold Splitting.check
  dsimp only
  rw [if_neg (by simp [hshape]), if_neg (by simp [R.lower_size, R.upper_size]),
    if_neg (by simpa [R.rowUpper_size] using fun hm => (hrows hm).1),
    if_neg (by simpa [hquadratic, hlinear] using fun hm => (hrows hm).2)]

variable (R : p.Reals)

def stacked : Matrix (Fin (p.numRows + p.dimension)) (Fin p.dimension) ℝ :=
  (fromRows R.A 1).submatrix finSumFinEquiv.symm id

theorem stacked_mulVec (w : Fin p.dimension → ℝ) : R.stacked *ᵥ w = Fin.append (R.A *ᵥ w) w := by
  change (fromRows R.A 1 *ᵥ w) ∘ finSumFinEquiv.symm = _
  rw [fromRows_mulVec, one_mulVec, sumElim_comp_finSumFinEquiv]

theorem rows_ofProgram : (Constraints.ofProgram p).rows = Mat.ofReal R.stacked := by
  dsimp only [Constraints.ofProgram]
  apply Mat.ofFn_eq_ofReal
  intro i j
  refine Fin.addCases (fun i => ?_) (fun i => ?_) i
  · simp [stacked, R.rows_eq i.pos]
  · by_cases hij : i = j
    · subst hij
      simp [stacked]
    · simp [stacked, Fin.val_ne_of_ne hij, hij]

theorem transposed_ofProgram : (Splitting.System.ofProgram p).transposed = Mat.ofReal R.stackedᵀ := by
  rw [← Mat.transpose_ofReal, ← R.rows_ofProgram]
  rfl

theorem isFeasible_iff (w : Fin p.dimension → ℝ) :
    p.IsFeasible (Vec.ofReal w) ↔ (Constraints.ofProgram p).Admits (R.stacked *ᵥ w) := by
  have hrows : ∀ i : Fin p.numRows, p.rows.mulVec (Vec.ofReal w) i = .real ((R.A *ᵥ w) i) := by
    intro i
    rw [R.rows_eq i.pos, Mat.mulVec_ofReal, Vec.get_ofReal_fin]
  have hlower : p.rowLower.size = p.numRows := rfl
  have hbounds := bounds_append_iff (c := p.lower) (d := p.upper) hlower R.rowUpper_size (R.A *ᵥ w) w
  rw [R.stacked_mulVec]
  refine Iff.trans ?_ hbounds.symm
  constructor
  · intro h
    constructor
    · intro i
      rw [← hrows]
      exact h.rows i i.isLt
    · intro j
      rw [← Vec.get_ofReal_fin]
      exact h.bounds j j.isLt
  · rintro ⟨hrow, hvariable⟩
    refine ⟨Vec.size_ofReal w, Vec.allFinite_ofReal w, fun i hi => ?_, fun j hj => ?_⟩
    · have h := hrow ⟨i, hi⟩
      rwa [← hrows] at h
    · have h := hvariable ⟨j, hj⟩
      rwa [← Vec.get_ofReal_fin] at h

theorem bounds_size (R : p.Reals) : (Constraints.ofProgram p).lower.size = p.numRows + p.dimension ∧
    (Constraints.ofProgram p).upper.size = p.numRows + p.dimension := by
  constructor
  · refine (Vec.size_append p.rowLower p.lower).trans ?_
    rw [R.lower_size]
    rfl
  · refine (Vec.size_append p.rowUpper p.upper).trans ?_
    rw [R.rowUpper_size, R.upper_size]

theorem bounds_row (R : p.Reals) (i : Fin p.numRows) :
    (Constraints.ofProgram p).lower (Fin.castAdd p.dimension i) = p.rowLower i ∧
      (Constraints.ofProgram p).upper (Fin.castAdd p.dimension i) = p.rowUpper i := by
  have hlower : (i : ℕ) < p.rowLower.size := i.isLt
  have hupper : (i : ℕ) < p.rowUpper.size := by
    rw [R.rowUpper_size]
    exact i.isLt
  constructor
  · exact (Vec.get_append _ _ _).trans (if_pos hlower)
  · exact (Vec.get_append _ _ _).trans (if_pos hupper)

theorem bounds_variable (R : p.Reals) (j : Fin p.dimension) :
    (Constraints.ofProgram p).lower (Fin.natAdd p.numRows j) = p.lower j ∧
      (Constraints.ofProgram p).upper (Fin.natAdd p.numRows j) = p.upper j := by
  have hlower : p.rowLower.size = p.numRows := rfl
  constructor
  · refine (Vec.get_append _ _ _).trans ?_
    simp [hlower]
  · refine (Vec.get_append _ _ _).trans ?_
    simp [R.rowUpper_size]

/-- A vector whose image is past no bound by more than `e` violates the program by at most `e`. Bounds that
are undefined are passed over. -/
theorem maxViolation_le {w : Fin p.dimension → ℝ} {e : ℝ} (he : 0 ≤ e)
    (h : ∀ i : Fin (p.numRows + p.dimension),
      ((Constraints.ofProgram p).lower i ≠ .undefined →
        (Constraints.ofProgram p).lower i - .real ((R.stacked *ᵥ w) i) ≤ .real e) ∧
      ((Constraints.ofProgram p).upper i ≠ .undefined →
        .real ((R.stacked *ᵥ w) i) - (Constraints.ofProgram p).upper i ≤ .real e)) :
    p.maxViolation (Vec.ofReal w) ≤ .real e := by
  have hzero : (0.0 : Exact) ≤ .real e := by
    rw [Exact.zero_literal]
    exact Exact.real_le_real.2 he
  rw [R.stacked_mulVec] at h
  have hrows : p.rowExcess (Vec.ofReal w) ≤ .real e := by
    unfold rowExcess
    split
    · exact hzero
    next hm =>
    have hpos := Nat.pos_of_ne_zero hm
    rw [R.rows_eq hpos, Mat.mulVec_ofReal]
    refine worstExcess_le hpos (by simp) rfl R.rowUpper_size hzero fun i hi => ?_
    have hrow := h (Fin.castAdd p.dimension ⟨i, hi⟩)
    rw [(R.bounds_row ⟨i, hi⟩).1, (R.bounds_row ⟨i, hi⟩).2, Fin.append_left] at hrow
    rw [Vec.get_ofReal _ hi]
    exact ⟨fun hdefined => hrow.1 (Exact.defined_of_sub hdefined).1,
      fun hdefined => hrow.2 (Exact.defined_of_sub hdefined).2⟩
  rw [maxViolation_eq]
  split
  · exact hrows
  next hn =>
  refine worstExcess_le (Nat.pos_of_ne_zero hn) (by simp) R.lower_size R.upper_size hrows fun j hj => ?_
  have hvariable := h (Fin.natAdd p.numRows ⟨j, hj⟩)
  rw [(R.bounds_variable ⟨j, hj⟩).1, (R.bounds_variable ⟨j, hj⟩).2, Fin.append_right] at hvariable
  rw [Vec.get_ofReal _ hj]
  exact ⟨fun hdefined => hvariable.1 (Exact.defined_of_sub hdefined).1,
    fun hdefined => hvariable.2 (Exact.defined_of_sub hdefined).2⟩

theorem excess_le_of_maxViolation_le (R : p.Reals) {w : Fin p.dimension → ℝ} {c : Exact}
    (hdefined : ∀ i < p.numRows + p.dimension, (Constraints.ofProgram p).lower i ≠ .undefined ∧
      (Constraints.ofProgram p).upper i ≠ .undefined)
    (h : p.maxViolation (Vec.ofReal w) ≤ c) (i : Fin (p.numRows + p.dimension)) :
    (Constraints.ofProgram p).lower i - .real ((R.stacked *ᵥ w) i) ≤ c ∧
      .real ((R.stacked *ᵥ w) i) - (Constraints.ofProgram p).upper i ≤ c := by
  have hentry : ∀ {lower upper : Exact} (a : ℝ), lower ≠ .undefined ∧ upper ≠ .undefined →
      lower - .real a ≤ lower - .real a ∧ .real a - upper ≤ .real a - upper := fun a hbounds =>
    ⟨Exact.defined_iff.2 (Exact.sub_real_defined_iff.2 hbounds.1),
      Exact.defined_iff.2 (Exact.real_sub_defined_iff.2 hbounds.2)⟩
  rw [R.stacked_mulVec]
  refine Fin.addCases (fun i => ?_) (fun j => ?_) i
  · have hrows := rowExcess_le_of_maxViolation_le h
    rw [rowExcess, if_neg (Nat.ne_of_gt i.pos), R.rows_eq i.pos, Mat.mulVec_ofReal] at hrows
    have hexcess := excess_le_of_worstExcess_le i.pos (Vec.size_ofReal _) rfl R.rowUpper_size ?_ hrows i i.isLt
    · rw [Vec.get_ofReal_fin] at hexcess
      rwa [(R.bounds_row i).1, (R.bounds_row i).2, Fin.append_left]
    · intro k hk
      have hbounds := hdefined (Fin.castAdd p.dimension ⟨k, hk⟩) (Fin.is_lt _)
      rw [(R.bounds_row ⟨k, hk⟩).1, (R.bounds_row ⟨k, hk⟩).2] at hbounds
      rw [Vec.get_ofReal _ hk]
      exact hentry _ hbounds
  · rw [maxViolation_eq, if_neg (Nat.ne_of_gt j.pos)] at h
    have hexcess := excess_le_of_worstExcess_le j.pos (Vec.size_ofReal w) R.lower_size R.upper_size ?_ h j j.isLt
    · rw [Vec.get_ofReal_fin] at hexcess
      rwa [(R.bounds_variable j).1, (R.bounds_variable j).2, Fin.append_right]
    · intro k hk
      have hbounds := hdefined (Fin.natAdd p.numRows ⟨k, hk⟩) (Fin.is_lt _)
      rw [(R.bounds_variable ⟨k, hk⟩).1, (R.bounds_variable ⟨k, hk⟩).2] at hbounds
      rw [Vec.get_ofReal _ hk]
      exact hentry _ hbounds

/-- **The violation is zero exactly at the feasible vectors**, if no bound is undefined. -/
theorem maxViolation_eq_zero_iff (R : p.Reals) (hdefined : ∀ i < p.numRows + p.dimension,
      (Constraints.ofProgram p).lower i ≠ .undefined ∧ (Constraints.ofProgram p).upper i ≠ .undefined)
    (w : Fin p.dimension → ℝ) : p.maxViolation (Vec.ofReal w) = 0.0 ↔ p.IsFeasible (Vec.ofReal w) := by
  have hzero : (0.0 : Exact) ≤ 0.0 := Exact.defined_iff.2 nofun
  rw [R.isFeasible_iff]
  constructor
  · intro h i
    have hle : p.maxViolation (Vec.ofReal w) ≤ .real 0 := by
      rw [h, Exact.zero_literal]
      exact Exact.real_le_real.2 le_rfl
    obtain ⟨hlower, hupper⟩ := R.excess_le_of_maxViolation_le hdefined hle i
    exact ⟨Exact.sub_real_nonpos_iff.1 hlower, Exact.real_sub_nonpos_iff.1 hupper⟩
  · intro h
    have hle : p.maxViolation (Vec.ofReal w) ≤ .real 0 := R.maxViolation_le le_rfl fun i =>
      ⟨fun _ => Exact.sub_real_nonpos_iff.2 (h i).1, fun _ => Exact.real_sub_nonpos_iff.2 (h i).2⟩
    have hge := zero_le_maxViolation (p := p) hzero (Vec.ofReal w)
    rw [Exact.zero_literal] at hge ⊢
    obtain ⟨r, hr, hnonneg, hnonpos⟩ := Exact.exists_real_of_between hge hle
    rw [hr, le_antisymm hnonpos hnonneg]

end Reals

end Program

end BinarySplitting
