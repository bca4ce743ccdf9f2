import Mathlib.Analysis.Normed.Group.Constructions
import BinarySplitting.Proofs.Linear.Real
import BinarySplitting.Proofs.Scalar.Extrema

/-!
# Sizes of vectors

On real vectors `maxNorm` is the supremum norm and `absSum` the sum of the absolute values, and an
inner product is at most the product of the two. On exact vectors an undefined entry spreads: a sum
with an undefined term is undefined, so a size that compares to something says that no entry is
undefined. An infinite entry spreads as well: a sum that is real has real terms.
-/

namespace BinarySplitting

open Matrix

variable {n : ℕ}

theorem abs_dotProduct_le (f g : Fin n → ℝ) : |f ⬝ᵥ g| ≤ ‖f‖ * ∑ i, |g i| := by
  calc |f ⬝ᵥ g| ≤ ∑ i, |f i * g i| := Finset.abs_sum_le_sum_abs _ _
    _ ≤ ∑ i, ‖f‖ * |g i| := by
      refine Finset.sum_le_sum fun i _ => ?_
      rw [abs_mul]
      exact mul_le_mul_of_nonneg_right (norm_le_pi_norm f i) (abs_nonneg (g i))
    _ = ‖f‖ * ∑ i, |g i| := (Finset.mul_sum _ _ _).symm

theorem exists_abs_eq_norm {f : Fin n → ℝ} (hf : 0 < ‖f‖) : ∃ i, |f i| = ‖f‖ := by
  by_contra! hne
  have hlt : ‖f‖ < ‖f‖ := (pi_norm_lt_iff hf).2 fun i => lt_of_le_of_ne (norm_le_pi_norm f i) (hne i)
  exact lt_irrefl _ hlt

theorem norm_fin_one (v : Fin 1 → ℝ) : ‖v‖ = |v 0| := by
  refine le_antisymm ((pi_norm_le_iff_of_nonneg (abs_nonneg _)).2 ?_) (norm_le_pi_norm v 0)
  exact Fin.forall_fin_one.2 le_rfl

theorem norm_fin_two (v : Fin 2 → ℝ) : ‖v‖ = max |v 0| |v 1| := by
  apply le_antisymm
  · refine (pi_norm_le_iff_of_nonneg (le_max_of_le_left (abs_nonneg _))).2 ?_
    exact Fin.forall_fin_two.2 ⟨le_max_left _ _, le_max_right _ _⟩
  · exact max_le (norm_le_pi_norm v 0) (norm_le_pi_norm v 1)

/-! ## Defined values -/

theorem Vec.lt_size_of_defined {v : Vec Exact} {i : ℕ} (h : v i ≠ .undefined) : i < v.size := by
  by_contra hge
  exact h (Vec.get_of_size_le (not_lt.1 hge))

theorem Scalar.defined_of_sum {k : ℕ} {f : ℕ → Exact} (h : Scalar.sum k f ≠ .undefined) :
    ∀ i < k, f i ≠ .undefined := by
  induction k with
  | zero => exact fun i hi => absurd hi (Nat.not_lt_zero i)
  | succ k ih =>
    intro i hi
    obtain ⟨hsum, hlast⟩ := Exact.defined_of_add h
    rcases Nat.lt_succ_iff_lt_or_eq.1 hi with hlt | rfl
    · exact ih hsum i hlt
    · exact hlast

theorem Scalar.isInfinite_sum {k : ℕ} {f : ℕ → Exact} (h : ∀ i < k, Scalar.isInfinite (f i) = false) :
    Scalar.isInfinite (Scalar.sum k f) = false := by
  induction k with
  | zero => simp [Scalar.sum]
  | succ k ih =>
    rw [Scalar.sum]
    exact Exact.isInfinite_add (ih fun i hi => h i (by omega)) (h k (by omega))

/-- An entry of a product that is defined shows that the sizes match and the vector is defined. -/
theorem Mat.defined_of_mulVec {r k : ℕ} {M : Matrix (Fin r) (Fin k) ℝ} {y : Vec Exact} {i : ℕ} (hi : i < r)
    (h : (Mat.ofReal M).mulVec y i ≠ .undefined) : y.size = k ∧ ∀ j < k, y j ≠ .undefined := by
  rw [get_mulVec y hi, cols_ofReal] at h
  have hterm : ∀ j < max k y.size, ofReal M i j ≠ .undefined ∧ y j ≠ .undefined := fun j hj =>
    Exact.defined_of_mul (Scalar.defined_of_sum h j hj)
  have hsize : y.size = k := by
    rcases lt_trichotomy y.size k with hlt | heq | hgt
    · exact absurd (Vec.get_of_size_le le_rfl) (hterm y.size (by omega)).2
    · exact heq
    · exact absurd (get_of_not_inside (by simp)) (hterm k (by omega)).1
  exact ⟨hsize, fun j hj => (hterm j (by omega)).2⟩

/-! ## Real values -/

theorem Scalar.exists_real_of_sum {k : ℕ} {f : ℕ → Exact} {r : ℝ} (h : Scalar.sum k f = .real r) :
    ∀ i < k, ∃ a, f i = .real a := by
  induction k generalizing r with
  | zero => exact fun i hi => absurd hi (Nat.not_lt_zero i)
  | succ k ih =>
    intro i hi
    obtain ⟨a, b, hsum, hlast⟩ := Exact.exists_real_of_add h
    rcases Nat.lt_succ_iff_lt_or_eq.1 hi with hlt | rfl
    · exact ih hsum i hlt
    · exact ⟨b, hlast⟩

theorem Mat.exists_ofReal_of_mulVec {r k : ℕ} {M : Matrix (Fin r) (Fin k) ℝ} {y : Vec Exact} {i : ℕ}
    {a : ℝ} (hi : i < r) (h : (Mat.ofReal M).mulVec y i = .real a) : ∃ f : Fin k → ℝ, y = Vec.ofReal f := by
  obtain ⟨hsize, -⟩ := defined_of_mulVec hi (by rw [h]; exact nofun)
  refine Vec.eq_ofReal hsize (Vec.allFinite_iff.2 fun j hj => Exact.isFinite_iff.2 ?_)
  rw [get_mulVec y hi, cols_ofReal, hsize, max_self] at h
  rw [hsize] at hj
  obtain ⟨b, hb⟩ := Scalar.exists_real_of_sum h j hj
  rw [get_ofReal M hi hj] at hb
  exact Exact.exists_real_of_real_mul hb

/-! ## Vectors -/

namespace Vec

variable {v : Vec Exact}

theorem le_of_maximum_le {c : Exact} (h : v.maximum ≤ c) {i : ℕ} (hi : i < v.size)
    (hdefined : v i ≤ v i) : v i ≤ c :=
  Scalar.le_of_greatest_le h (by omega) hdefined

theorem maxNorm_of_pos (hpos : 0 < v.size) : v.maxNorm = (v.map Scalar.abs).maximum :=
  if_neg (by omega)

theorem first_defined_of_maxNorm_le {c : Exact} (hpos : 0 < v.size) (h : v.maxNorm ≤ c) :
    v 0 ≠ .undefined := by
  rw [maxNorm_of_pos hpos] at h
  have hfirst : v.map Scalar.abs 0 ≤ c := Scalar.first_le_of_greatest_le h
  rw [get_map _ hpos] at hfirst
  exact Exact.abs_defined_iff.1 (Exact.defined_iff.1 (OrderedScalar.refl_of_le _ _ hfirst).1)

theorem abs_le_of_maxNorm_le {c : Exact} (h : v.maxNorm ≤ c) {i : ℕ} (hi : i < v.size)
    (hdefined : v i ≠ .undefined) : Scalar.abs (v i) ≤ c := by
  rw [maxNorm_of_pos (by omega)] at h
  have hentry : v.map Scalar.abs i = Scalar.abs (v i) := get_map _ hi
  rw [← hentry]
  refine le_of_maximum_le h (by simpa using hi) ?_
  rw [hentry]
  exact Exact.defined_iff.2 (Exact.abs_defined_iff.2 hdefined)

theorem maxNorm_cases_of_le {c : Exact} (h : v.maxNorm ≤ c) :
    (∃ r, v.maxNorm = .real r) ∨ v.maxNorm = .plusInfinity := by
  rcases Nat.eq_zero_or_pos v.size with hzero | hpos
  · exact Or.inl ⟨0, (if_pos hzero).trans Exact.zero_literal⟩
  have hfirst := abs_le_of_maxNorm_le (OrderedScalar.refl_of_le _ _ h).1 hpos (first_defined_of_maxNorm_le hpos h)
  cases hnorm : v.maxNorm with
  | real r => exact Or.inl ⟨r, rfl⟩
  | plusInfinity => exact Or.inr rfl
  | undefined => exact absurd (hnorm ▸ h) (Exact.not_undefined_le c)
  | minusInfinity =>
    rw [hnorm] at hfirst
    exact absurd hfirst (Exact.not_abs_le_minusInfinity _)

theorem eq_ofReal_of_maxNorm {r : ℝ} (hn : v.size = n) (hdefined : ∀ i < v.size, v i ≠ .undefined)
    (h : v.maxNorm = .real r) : ∃ f : Fin n → ℝ, v = ofReal f := by
  refine eq_ofReal hn (allFinite_iff.2 fun i hi => Exact.isFinite_iff.2 ?_)
  have hbound : v.maxNorm ≤ .real r := by rw [h]; exact Exact.real_le_real.2 le_rfl
  have hle := abs_le_of_maxNorm_le hbound hi (hdefined i hi)
  cases hv : v i with
  | undefined => exact absurd hv (hdefined i hi)
  | minusInfinity =>
    rw [hv] at hle
    exact absurd hle (Exact.not_plusInfinity_le_real r)
  | plusInfinity =>
    rw [hv] at hle
    exact absurd hle (Exact.not_plusInfinity_le_real r)
  | real a => exact ⟨a, rfl⟩

theorem maxNorm_ofReal (f : Fin n → ℝ) : (ofReal f).maxNorm = .real ‖f‖ := by
  rcases Nat.eq_zero_or_pos n with rfl | hpos
  · rw [maxNorm, if_pos (size_ofReal f), Exact.zero_literal, Subsingleton.elim f 0, norm_zero]
  · rw [maxNorm_of_pos (by simpa using hpos), map_ofReal Exact.real_abs, maximum, size_ofReal]
    obtain ⟨k, hk, hgreatest⟩ := Scalar.exists_greatest_eq (n - 1) (ofReal fun i => |f i|)
    have hlt : k < n := by omega
    rw [get_ofReal _ hlt] at hgreatest
    rw [hgreatest, Exact.real_inj]
    apply le_antisymm (norm_le_pi_norm f ⟨k, hlt⟩)
    refine (pi_norm_le_iff_of_nonneg (abs_nonneg _)).2 fun i => ?_
    have hle : Scalar.greatest (n - 1) (ofReal fun i => |f i|) ≤ .real |f ⟨k, hlt⟩| := by
      rw [hgreatest]
      exact Exact.real_le_real.2 le_rfl
    have hentry := Scalar.le_of_greatest_le hle (i := i) (by omega) (by simp)
    simpa using hentry

theorem abs_le_of_norm_lt {f : Fin n → ℝ} {t : ℝ} (h : (ofReal f).norm < .real t) (i : Fin n) : |f i| ≤ t := by
  rw [norm_ofReal, Exact.real_lt_real] at h
  have hsquare : f i ^ 2 ≤ f ⬝ᵥ f := by
    rw [sq]
    exact Finset.single_le_sum (fun j _ => mul_self_nonneg (f j)) (Finset.mem_univ i)
  exact (Real.abs_le_sqrt hsquare).trans h.le

theorem absSum_ofReal (f : Fin n → ℝ) : (ofReal f).absSum = .real (∑ i, |f i|) := by
  rw [absSum, map_ofReal Exact.real_abs, sum, size_ofReal]
  exact Scalar.sum_real fun i => get_ofReal_fin _ i

end Vec

end BinarySplitting
