import BinarySplitting.Proofs.Decomposition.ContinuousBlock
import BinarySplitting.Proofs.Linear.Norms

/-!
# Rows kept at the copy, violation measured at the binary vector

The convex programs keep the rows at the relaxed copy `z`, while the violation is measured at the binary
vector `x`. From one to the other a row `m` changes by at most `Σ |m j| |x j - z j|`, so what is missed
at `x` is at most the sum of this over the rows that the binary variables enter, `Problem.rowDrift`
(`Problem.Reals.violation_le`). The bounds of the continuous variables do not move, and the equalities are
measured at `x` alone. If no entry of `x` is further than `t` from that of `z`, the sum is at most `t` times
that of the absolute values of the rows, `Problem.rowWeight` (`Problem.Reals.violation_le_of_near`).
-/

namespace BinarySplitting

open Matrix

section generic

variable {α : Type} [Scalar α]

/-- The sum of the absolute values of the entries. -/
def Mat.absSum (m : Mat α) : α :=
  Scalar.sum m.rows fun i => Scalar.sum m.cols fun j => Scalar.abs (m i j)

/-- The most by which all rows together can change along a vector, the sum of `|m i j| |v j|`. -/
def Mat.reach (m : Mat α) (v : Vec α) : α :=
  Scalar.sum m.rows fun i => Scalar.sum m.cols fun j => Scalar.abs (m i j) * Scalar.abs (v j)

namespace Problem

/-- A measure of the rows that the binary variables enter besides the equalities; a block of no rows
counts nothing. -/
def sumRows (p : Problem α) (measure : Mat α → α) : α :=
  (if p.numInequalities = 0 then 0.0 else measure p.inequalityRows) +
    if p.numCoupling = 0 then 0.0 else measure p.couplingBinary

/-- The most by which the inequalities and the coupling rows can change along a binary part. -/
def rowDrift (p : Problem α) (v : Vec α) : α := p.sumRows fun m => m.reach v

/-- The sum of the absolute values of the inequality rows and of the binary part of the coupling rows. -/
def rowWeight (p : Problem α) : α := p.sumRows Mat.absSum

/-- Some finite pair is feasible for the block of the relaxed copy and the continuous vector. -/
def HasFeasibleBlock (p : Problem α) : Prop :=
  ∃ z u, (z.size = p.numBinary ∧ z.allFinite = true) ∧ (u.size = p.numContinuous ∧ u.allFinite = true) ∧
    p.IsBlockFeasible z u

end Problem

end generic

/-! ## Sums over real rows -/

theorem Mat.absSum_ofReal {m n : ℕ} (M : Matrix (Fin m) (Fin n) ℝ) :
    (ofReal M).absSum = .real (∑ i, ∑ j, |M i j|) := by
  unfold absSum
  rw [rows_ofReal, cols_ofReal]
  exact Scalar.sum_real fun i => Scalar.sum_real fun j => by rw [get_ofReal_fin, Exact.real_abs]

theorem Mat.reach_ofReal {m n : ℕ} (M : Matrix (Fin m) (Fin n) ℝ) (v : Fin n → ℝ) :
    (ofReal M).reach (Vec.ofReal v) = .real (∑ i, ∑ j, |M i j| * |v j|) := by
  unfold reach
  rw [rows_ofReal, cols_ofReal]
  exact Scalar.sum_real fun i => Scalar.sum_real fun j => by
    rw [get_ofReal_fin, Vec.get_ofReal_fin, Exact.real_abs, Exact.real_abs, Exact.real_mul]

theorem Vec.excess_ofReal {n : ℕ} (f : Fin n → ℝ) : (ofReal f).excess = .real (∑ i, max (f i) 0) := by
  have hlarger : ∀ a : ℝ, Scalar.larger (Exact.real a) 0.0 = .real (max a 0) := fun a => by
    rw [Exact.zero_literal, Exact.larger_real]
  rw [excess, map_ofReal hlarger, sum, size_ofReal]
  exact Scalar.sum_real fun i => get_ofReal_fin _ i

theorem Vec.excess_eq_zero {v : Vec Exact} (h : ∀ i < v.size, v i ≤ .real 0) : v.excess = .real 0 := by
  have hentry : ∀ i : Fin v.size, v.map (fun a => Scalar.larger a 0.0) i = .real 0 := fun i => by
    rw [get_map _ i.isLt, Exact.zero_literal]
    exact Exact.larger_zero_of_nonpos (h i i.isLt)
  rw [excess, sum, size_map, Scalar.sum_real hentry, Finset.sum_const_zero]

section rows

variable {m n : ℕ} {M : Matrix (Fin m) (Fin n) ℝ}

theorem sum_excess_le {x z : Fin n → ℝ} {rhs : Fin m → ℝ} (h : ∀ i, (M *ᵥ z) i ≤ rhs i) :
    ∑ i, max ((M *ᵥ x) i - rhs i) 0 ≤ ∑ i, ∑ j, |M i j| * |(x - z) j| := by
  refine Finset.sum_le_sum fun i _ => max_le ?_ ?_
  · calc (M *ᵥ x) i - rhs i ≤ (M *ᵥ x) i - (M *ᵥ z) i := sub_le_sub_left (h i) _
      _ = ∑ j, M i j * (x - z) j := by
        rw [← Pi.sub_apply (M *ᵥ x), ← mulVec_sub]
        rfl
      _ ≤ ∑ j, |M i j * (x - z) j| := Finset.sum_le_sum fun j _ => le_abs_self _
      _ = ∑ j, |M i j| * |(x - z) j| := Finset.sum_congr rfl fun j _ => abs_mul _ _
  · exact Finset.sum_nonneg fun j _ => mul_nonneg (abs_nonneg _) (abs_nonneg _)

theorem sum_reach_le {v : Fin n → ℝ} {t : ℝ} (h : ∀ j, |v j| ≤ t) :
    ∑ i, ∑ j, |M i j| * |v j| ≤ t * ∑ i, ∑ j, |M i j| := by
  calc ∑ i, ∑ j, |M i j| * |v j| ≤ ∑ i, ∑ j, |M i j| * t :=
        Finset.sum_le_sum fun i _ => Finset.sum_le_sum fun j _ =>
          mul_le_mul_of_nonneg_left (h j) (abs_nonneg _)
    _ = t * ∑ i, ∑ j, |M i j| := by
      rw [mul_comm t, Finset.sum_mul]
      exact Finset.sum_congr rfl fun i _ => (Finset.sum_mul _ _ _).symm

end rows

/-! ## The violation of an accepted problem -/

namespace Problem.Reals

variable {p : Problem Exact} (R : p.Reals)

theorem sumRows_ofReal {measure : Mat Exact → Exact} (f : ℝ → Fin p.numBinary → ℝ)
    (hmeasure : ∀ {m : ℕ} (M : Matrix (Fin m) (Fin p.numBinary) ℝ),
      measure (Mat.ofReal M) = .real (∑ i, ∑ j, f (M i j) j)) :
    p.sumRows measure = .real ((∑ i, ∑ j, f (R.A i j) j) + ∑ i, ∑ j, f (R.C i j) j) := by
  have hblock : ∀ {m : ℕ} {block : Mat Exact} (M : Matrix (Fin m) (Fin p.numBinary) ℝ),
      (0 < m → block = Mat.ofReal M) →
        (if m = 0 then 0.0 else measure block) = .real (∑ i, ∑ j, f (M i j) j) := by
    intro m block M hM
    split
    · next hm =>
      have hempty : IsEmpty (Fin m) := by rw [hm]; infer_instance
      rw [Finset.univ_eq_empty, Finset.sum_empty, Exact.zero_literal]
    · next hm => rw [hM (Nat.pos_of_ne_zero hm), hmeasure]
  unfold sumRows
  rw [hblock R.A R.inequalityRows_eq, hblock R.C R.couplingBinary_eq, Exact.real_add]

theorem rowDrift_ofReal (v : Fin p.numBinary → ℝ) : p.rowDrift (Vec.ofReal v) =
    .real ((∑ i, ∑ j, |R.A i j| * |v j|) + ∑ i, ∑ j, |R.C i j| * |v j|) :=
  R.sumRows_ofReal (fun a j => |a| * |v j|) fun M => Mat.reach_ofReal M v

theorem rowWeight_ofReal :
    p.rowWeight = .real ((∑ i, ∑ j, |R.A i j|) + ∑ i, ∑ j, |R.C i j|) :=
  R.sumRows_ofReal (fun a _ => |a|) fun M => Mat.absSum_ofReal M

theorem equalityViolation_ofReal (x : Fin p.numBinary → ℝ) :
    p.equalityViolation (Vec.ofReal x) = .real (∑ i, |R.equalityMiss x i|) := by
  unfold equalityViolation
  split
  · next hm =>
    have hempty : IsEmpty (Fin p.numEqualities) := by rw [hm]; infer_instance
    rw [Finset.univ_eq_empty, Finset.sum_empty, Exact.zero_literal]
  · next hm => rw [R.equalityMiss_ofReal (Nat.pos_of_ne_zero hm), Vec.absSum_ofReal]

theorem inequalityViolation_ofReal (x : Fin p.numBinary → ℝ) :
    p.inequalityViolation (Vec.ofReal x) = .real (∑ i, max ((R.A *ᵥ x) i - R.r i) 0) := by
  unfold inequalityViolation
  split
  · next hm =>
    have hempty : IsEmpty (Fin p.numInequalities) := by rw [hm]; infer_instance
    rw [Finset.univ_eq_empty, Finset.sum_empty, Exact.zero_literal]
  · next hm =>
    rw [R.inequalityRows_eq (Nat.pos_of_ne_zero hm), R.inequalityRhs_eq, Mat.mulVec_ofReal,
      Vec.ofReal_sub, Vec.excess_ofReal]
    rfl

theorem couplingViolation_ofReal (x : Fin p.numBinary → ℝ) (u : Fin p.numContinuous → ℝ) :
    p.couplingViolation (Vec.ofReal x) (Vec.ofReal u) =
      .real (∑ i, max ((R.C *ᵥ x) i - (R.d - R.D *ᵥ u) i) 0) := by
  unfold couplingViolation
  split
  · next hm =>
    have hempty : IsEmpty (Fin p.numCoupling) := by rw [hm]; infer_instance
    rw [Finset.univ_eq_empty, Finset.sum_empty, Exact.zero_literal]
  · next hm =>
    have hmiss : R.C *ᵥ x + R.D *ᵥ u - R.d = R.C *ᵥ x - (R.d - R.D *ᵥ u) := by abel
    rw [R.couplingLhs_eq_ofReal (Nat.pos_of_ne_zero hm), R.couplingRhs_eq, Vec.ofReal_sub, hmiss,
      Vec.excess_ofReal]
    rfl

include R

theorem boundViolation_eq_zero {u : Fin p.numContinuous → ℝ}
    (h : ∀ j : Fin p.numContinuous, p.lower j ≤ .real (u j) ∧ .real (u j) ≤ p.upper j) :
    p.boundViolation (Vec.ofReal u) = .real 0 := by
  unfold boundViolation
  split
  · exact Exact.zero_literal
  · rw [Vec.excess_eq_zero, Vec.excess_eq_zero, Exact.real_add, add_zero]
    · intro j hj
      rw [Vec.get_sub hj]
      rw [Vec.size_sub, Vec.size_ofReal, R.upper_size, max_self] at hj
      rw [Vec.get_ofReal u hj]
      exact Exact.real_sub_le (h ⟨j, hj⟩).2 (sub_self _).le
    · intro j hj
      rw [Vec.get_sub hj]
      rw [Vec.size_sub, Vec.size_ofReal, R.lower_size, max_self] at hj
      rw [Vec.get_ofReal u hj]
      exact Exact.sub_real_le (h ⟨j, hj⟩).1 (sub_self _).le

/-- **The violation at a binary vector is at most that of the equalities and the change of the rows**
from a copy at which they hold. -/
theorem violation_le {x z : Fin p.numBinary → ℝ} {u : Fin p.numContinuous → ℝ}
    (h : p.IsBlockFeasible (Vec.ofReal z) (Vec.ofReal u)) :
    p.violation (Vec.ofReal x) (Vec.ofReal u) ≤
      p.equalityViolation (Vec.ofReal x) + p.rowDrift (Vec.ofReal (x - z)) := by
  obtain ⟨-, hinequalities, hcoupling, hbounds⟩ := (R.isBlockFeasible_ofReal z u).1 h
  have hrows : ∀ i, (R.C *ᵥ z) i ≤ (R.d - R.D *ᵥ u) i := fun i => by
    have hrow := hcoupling i
    rw [Pi.add_apply] at hrow
    rw [Pi.sub_apply]
    linarith
  have hinequality := sum_excess_le (x := x) hinequalities
  have hcoupled := sum_excess_le (x := x) hrows
  unfold violation
  rw [R.equalityViolation_ofReal, R.inequalityViolation_ofReal, R.couplingViolation_ofReal,
    R.boundViolation_eq_zero hbounds, R.rowDrift_ofReal]
  simp only [Exact.real_add, Exact.real_le_real]
  linarith

theorem rowDrift_le {v : Fin p.numBinary → ℝ} {t : ℝ} (h : ∀ j, |v j| ≤ t) :
    p.rowDrift (Vec.ofReal v) ≤ .real t * p.rowWeight := by
  rw [R.rowDrift_ofReal, R.rowWeight_ofReal, Exact.real_mul, Exact.real_le_real, mul_add]
  exact add_le_add (sum_reach_le h) (sum_reach_le h)

theorem violation_le_of_near {x z : Fin p.numBinary → ℝ} {u : Fin p.numContinuous → ℝ} {t : ℝ}
    (h : p.IsBlockFeasible (Vec.ofReal z) (Vec.ofReal u)) (hnear : ∀ j, |(x - z) j| ≤ t) :
    p.violation (Vec.ofReal x) (Vec.ofReal u) ≤
      p.equalityViolation (Vec.ofReal x) + .real t * p.rowWeight := by
  have hviolation := R.violation_le (x := x) h
  have hdrift := R.rowDrift_le hnear
  rw [R.equalityViolation_ofReal] at hviolation ⊢
  rw [R.rowWeight_ofReal, Exact.real_mul] at hdrift ⊢
  rw [R.rowDrift_ofReal] at hviolation hdrift
  refine OrderedScalar.trans _ _ _ hviolation ?_
  rw [Exact.real_add, Exact.real_add, Exact.real_le_real]
  exact add_le_add_right (Exact.real_le_real.1 hdrift) _

end Problem.Reals

end BinarySplitting
