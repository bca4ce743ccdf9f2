import Mathlib.Order.Bounds.Defs
import Mathlib.Order.SetNotation
import BinarySplitting.Linear.Spectrum
import BinarySplitting.Proofs.Problem.Checked
import BinarySplitting.Proofs.Problem.Unconstrained
import BinarySplitting.Proofs.Scalar.Defined

/-!
# The checks accept exactly the well-formed problems

`Problem.WellFormed` says of a problem's data, entry by entry, what the documentation of the checks says in
words: shapes, finite entries, symmetry and convexity up to a tolerance that is relative to the greatest
absolute value, a real number between the bounds of every continuous variable, complete lists of names. It
speaks of no function of the checks. `Problem.validate_iff_wellFormed` proves that the checks accept
exactly these problems, have a defect for every other one, and read only what exists in either case.

The checks compare greatest and least entries. What they conclude from one comparison holds of all entries
because an accepted part has been found finite before, so that every value in the comparison is defined
(`DefinedScalar`); a comparison with an undefined value would have been passed over in silence.
-/

namespace BinarySplitting

variable {α : Type} [Scalar α]

/-! ## Greatest entries -/

section greatest

variable [OrderedScalar α]

theorem le_iff_of_isGreatest {values : Set α} {a c : α} (h : IsGreatest values a) :
    a ≤ c ↔ ∀ b ∈ values, b ≤ c :=
  ⟨fun hle b hb => OrderedScalar.trans b a c (h.2 hb) hle, fun hall => hall a h.1⟩

theorem Scalar.isGreatest_larger {values : Set α} {a b : α} (hb : b ≤ b) (h : IsGreatest values a) :
    IsGreatest (insert b values) (larger b a) := by
  have ha : a ≤ a := h.2 h.1
  have hmem : larger b a = b ∨ larger b a = a := by
    unfold larger
    split
    · exact Or.inr rfl
    · exact Or.inl rfl
  have hdefined : larger b a ≤ larger b a := by
    rcases hmem with heq | heq <;> rw [heq]
    · exact hb
    · exact ha
  refine ⟨?_, ?_⟩
  · rcases hmem with heq | heq <;> rw [heq]
    · exact Set.mem_insert _ _
    · exact Set.mem_insert_of_mem _ h.1
  · intro c hc
    rcases hc with rfl | hc
    · exact left_le_of_larger_le hdefined
    · exact OrderedScalar.trans c a _ (h.2 hc) (right_le_of_larger_le hdefined ha)

theorem Vec.isGreatest_maximum {v : Vec α} {n : ℕ} {f : ℕ → α} (hn : 0 < n) (hsize : v.size = n)
    (hv : ∀ i < n, v i = f i) (hf : ∀ i < n, f i ≤ f i) : IsGreatest {a | ∃ i < n, a = f i} v.maximum := by
  subst hsize
  have hentries : ∀ i < v.size, v i ≤ v i := fun i hi => by rw [hv i hi]; exact hf i hi
  have hdefined : v.maximum ≤ v.maximum := Scalar.greatest_defined fun i hi => hentries i (by omega)
  obtain ⟨i, hi, heq⟩ := Scalar.exists_greatest_eq (v.size - 1) v
  refine ⟨⟨i, by omega, heq.trans (hv i (by omega))⟩, ?_⟩
  rintro a ⟨k, hk, rfl⟩
  rw [← hv k hk]
  exact Scalar.le_of_greatest_le hdefined (by omega) (hentries k hk)

theorem Mat.isGreatest_maxAbs {m : Mat α} {n : ℕ} {f : ℕ → ℕ → α} (hn : 0 < n) (hr : m.rows = n) (hc : m.cols = n)
    (hm : ∀ i < n, ∀ j < n, Scalar.abs (m i j) = f i j) (hf : ∀ i < n, ∀ j < n, f i j ≤ f i j) :
    IsGreatest {a | ∃ i < n, ∃ j < n, a = f i j} m.maxAbs := by
  subst hr
  have hentries : ∀ i < m.rows, ∀ j < m.cols, Scalar.abs (m i j) ≤ Scalar.abs (m i j) := by
    intro i hi j hj
    rw [hm i hi j (hc ▸ hj)]
    exact hf i hi j (hc ▸ hj)
  have hrows : ∀ i < m.rows, Scalar.greatest (m.cols - 1) (fun j => Scalar.abs (m i j)) ≤
      Scalar.greatest (m.cols - 1) fun j => Scalar.abs (m i j) :=
    fun i hi => Scalar.greatest_defined fun j hj => hentries i hi j (by omega)
  have hdefined : m.maxAbs ≤ m.maxAbs := Scalar.greatest_defined fun i hi => hrows i (by omega)
  obtain ⟨i, hi, j, hj, heq⟩ := m.exists_maxAbs hn (hc ▸ hn)
  refine ⟨⟨i, hi, j, hc ▸ hj, heq.trans (hm i hi j (hc ▸ hj))⟩, ?_⟩
  rintro a ⟨k, hk, l, hl, rfl⟩
  have hle := Scalar.le_of_greatest_le hdefined (by omega : k ≤ m.rows - 1) (hrows k hk)
  rw [← hm k hk l hl]
  exact Scalar.le_of_greatest_le hle (by omega) (hentries k hk l (hc ▸ hl))

end greatest

/-! ## Well-formed problems -/

def Vec.IsFinite (v : Vec α) : Prop := ∀ i < v.size, Scalar.isFinite (v i) = true

def Mat.IsFinite (m : Mat α) : Prop := ∀ i < m.rows, ∀ j < m.cols, Scalar.isFinite (m i j) = true

namespace Problem

/-- What the tolerance of a check is relative to: the greatest of one and some absolute values. -/
def IsScale (values : Set α) (s : α) : Prop := IsGreatest (insert 1.0 values) s

/-- No entry of an `n × n` matrix differs from the one across the diagonal by more than `1e-9`, relative to
the greatest absolute value of an entry if that is above one. -/
def IsNearlySymmetric (n : ℕ) (m : Mat α) : Prop :=
  ∃ s, IsScale {a | ∃ i < n, ∃ j < n, a = Scalar.abs (m i j)} s ∧
    ∀ i < n, ∀ j < n, Scalar.abs (m i j - m j i) ≤ 1e-9 * s

/-- None of `l` eigenvalues is below `-1e-9`, relative to the greatest absolute value of an eigenvalue if
that is above one. -/
def IsNearlyNonnegative (l : ℕ) (eigenvalues : Vec α) : Prop :=
  ∃ s, IsScale {a | ∃ k < l, a = Scalar.abs (eigenvalues k)} s ∧ ∀ k < l, -1e-9 * s ≤ eigenvalues k

/-- A real number lies between two bounds. -/
def HasRealBetween (lower upper : α) : Prop :=
  ∃ r, (-Scalar.infinity < r ∧ r < Scalar.infinity) ∧ lower ≤ r ∧ r ≤ upper

/-- A problem whose data fit together and define a convex program. -/
structure WellFormed (spectrum : Mat α → Vec α) (p : Problem α) : Prop where
  numBinary : 1 ≤ p.numBinary
  binaryQuadratic_shape : p.binaryQuadratic.rows = p.numBinary ∧ p.binaryQuadratic.cols = p.numBinary
  binaryQuadratic_finite : p.binaryQuadratic.IsFinite
  binaryQuadratic_symmetric : IsNearlySymmetric p.numBinary p.binaryQuadratic
  continuousQuadratic_shape : p.continuousQuadratic.Fits p.numContinuous p.numContinuous
  continuousQuadratic_finite : p.continuousQuadratic.IsFinite
  continuousQuadratic_symmetric : IsNearlySymmetric p.numContinuous p.continuousQuadratic
  continuousQuadratic_convex : IsNearlyNonnegative p.numContinuous (spectrum p.continuousQuadratic)
  binaryLinear_finite : p.binaryLinear.IsFinite
  continuousLinear_finite : p.continuousLinear.IsFinite
  constant_finite : Scalar.isFinite p.constant = true
  equalityRows_shape : p.equalityRows.Fits p.numEqualities p.numBinary
  equalityRows_finite : p.equalityRows.IsFinite
  equalityRhs_finite : p.equalityRhs.IsFinite
  inequalityRows_shape : p.inequalityRows.Fits p.numInequalities p.numBinary
  inequalityRows_finite : p.inequalityRows.IsFinite
  inequalityRhs_finite : p.inequalityRhs.IsFinite
  couplingBinary_shape : p.couplingBinary.Fits p.numCoupling p.numBinary
  couplingBinary_finite : p.couplingBinary.IsFinite
  couplingContinuous_shape : p.couplingContinuous.Fits p.numCoupling p.numContinuous
  couplingContinuous_finite : p.couplingContinuous.IsFinite
  couplingRhs_finite : p.couplingRhs.IsFinite
  bounds_size : p.lower.size = p.numContinuous ∧ p.upper.size = p.numContinuous
  bounds : ∀ j < p.numContinuous, HasRealBetween (p.lower j) (p.upper j)
  binaryNames : p.binaryNames = [] ∨ p.binaryNames.length = p.numBinary
  continuousNames : p.continuousNames = [] ∨ p.continuousNames.length = p.numContinuous

/-- The eigenvalues of the continuous form: as many numbers as there are continuous variables. They are asked
for only if the form has its shape, finite entries and symmetry. -/
def HasEigenvalues (spectrum : Mat α → Vec α) (p : Problem α) : Prop :=
  0 < p.numContinuous → p.continuousQuadratic.Fits p.numContinuous p.numContinuous →
    p.continuousQuadratic.IsFinite → IsNearlySymmetric p.numContinuous p.continuousQuadratic →
    (spectrum p.continuousQuadratic).size = p.numContinuous ∧
      ∀ k < p.numContinuous, spectrum p.continuousQuadratic k ≤ spectrum p.continuousQuadratic k

end Problem

/-! ## Finite entries -/

theorem Mat.allFinite_iff_isFinite {m : Mat α} : m.allFinite = true ↔ m.IsFinite := by
  have hentry : ∀ i (hi : i < m.rows) j (hj : j < m.cols), m i j = m.entries[i][j] :=
    fun i hi j hj => dif_pos ⟨hi, hj⟩
  unfold allFinite all
  simp only [Vector.all_eq_true]
  exact forall₂_congr fun i hi => forall₂_congr fun j hj => by rw [hentry i hi j hj]

namespace Problem

variable [DefinedScalar α]

/-! ## Symmetry and convexity -/

theorem abs_defined_of_isFinite {a : α} (h : Scalar.isFinite a = true) : Scalar.abs a ≤ Scalar.abs a :=
  (OrderedScalar.refl_of_le _ _ (OrderedScalar.le_of_lt (of_decide_eq_true h))).1

section scale

variable {values : Set α} {s : α}

theorem exists_isScale_iff (hs : IsScale values s) {c : α} {P : α → Prop} :
    (∃ t, IsScale values t ∧ P (c * t)) ↔ P (c * s) := by
  refine ⟨?_, fun h => ⟨s, hs, h⟩⟩
  rintro ⟨t, ht, hP⟩
  rwa [DefinedScalar.mul_congr s t c (hs.2 (Set.mem_insert _ _)) (ht.2 hs.1) (hs.2 ht.1)]

theorem isScale_of_isGreatest (h : IsGreatest values s) : IsScale values (Scalar.larger 1.0 s) :=
  Scalar.isGreatest_larger DefinedScalar.one_defined h

theorem isScale_one_of_empty (h : ∀ a, a ∉ values) : IsScale values 1.0 := by
  refine ⟨Set.mem_insert _ _, ?_⟩
  rintro a (rfl | ha)
  · exact DefinedScalar.one_defined
  · exact absurd ha (h a)

theorem IsScale.small_mul_defined (hs : IsScale values s) :
    (1e-9 : α) * s ≤ 1e-9 * s ∧ (-1e-9 : α) * s ≤ -1e-9 * s :=
  DefinedScalar.small_mul_defined s (hs.2 (Set.mem_insert _ _))

end scale

section forms

variable {m : Mat α} {n : ℕ} {eigenvalues : Vec α}

theorem isGreatest_asymmetry (hn : 0 < n) (hr : m.rows = n) (hc : m.cols = n) (hfinite : m.IsFinite) :
    IsGreatest {a | ∃ i < n, ∃ j < n, a = Scalar.abs (m i j - m j i)} (m - m.transpose).maxAbs := by
  subst hr
  have hrows : (m - m.transpose).rows = m.rows := (congrArg (max m.rows) hc).trans (Nat.max_self _)
  have hcols : (m - m.transpose).cols = m.rows := (congrArg (max · m.rows) hc).trans (Nat.max_self _)
  refine Mat.isGreatest_maxAbs hn hrows hcols (fun i hi j hj => ?_) fun i hi j hj => ?_
  · rw [← m.get_transpose i j]
    exact congrArg Scalar.abs (Mat.get_zip _ (lt_max_of_lt_left hi) (lt_max_of_lt_left (hc ▸ hj)))
  · have hij := hfinite i hi j (hc ▸ hj)
    have hji := hfinite j hj i (hc ▸ hi)
    exact DefinedScalar.abs_defined _ (DefinedScalar.sub_defined _ _ hij hji)

theorem isSymmetric_iff (hn : 0 < n) (hr : m.rows = n) (hc : m.cols = n) (hfinite : m.IsFinite) :
    IsSymmetric m ↔ IsNearlySymmetric n m := by
  have hscale : IsScale {a | ∃ i < n, ∃ j < n, a = Scalar.abs (m i j)} (Scalar.larger 1.0 m.maxAbs) :=
    isScale_of_isGreatest (Mat.isGreatest_maxAbs hn hr hc (fun _ _ _ _ => rfl) fun i hi j hj =>
      abs_defined_of_isFinite (hfinite i (hr ▸ hi) j (hc ▸ hj)))
  have hasymmetry := isGreatest_asymmetry hn hr hc hfinite
  unfold IsNearlySymmetric
  rw [exists_isScale_iff hscale (P := fun c => ∀ i < n, ∀ j < n, Scalar.abs (m i j - m j i) ≤ c)]
  refine (OrderedScalar.not_lt_iff_le hscale.small_mul_defined.1 (hasymmetry.2 hasymmetry.1)).trans ?_
  rw [le_iff_of_isGreatest hasymmetry]
  constructor
  · exact fun h i hi j hj => h _ ⟨i, hi, j, hj, rfl⟩
  · rintro h a ⟨i, hi, j, hj, rfl⟩
    exact h i hi j hj

theorem isConvex_iff (hn : 0 < n) (hsize : eigenvalues.size = n)
    (hdefined : ∀ k < n, eigenvalues k ≤ eigenvalues k) :
    IsConvex eigenvalues ↔ IsNearlyNonnegative n eigenvalues := by
  subst hsize
  have hscale : IsScale {a | ∃ k < eigenvalues.size, a = Scalar.abs (eigenvalues k)}
      (Scalar.larger 1.0 (eigenvalues.map Scalar.abs).maximum) :=
    isScale_of_isGreatest (Vec.isGreatest_maximum hn (Vec.size_map _ _) (fun k hk => Vec.get_map _ hk)
      fun k hk => DefinedScalar.abs_defined _ (hdefined k hk))
  have hleast : ∀ k < eigenvalues.size, eigenvalues.minimum ≤ eigenvalues k := fun k hk =>
    Scalar.least_le (fun i hi => hdefined i (by omega)) (by omega)
  obtain ⟨k, hk, hattained⟩ := Scalar.exists_least_eq (eigenvalues.size - 1) eigenvalues
  have hminimum : eigenvalues.minimum ≤ eigenvalues.minimum := by
    rw [Vec.minimum, hattained]
    exact hdefined k (by omega)
  unfold IsNearlyNonnegative
  rw [exists_isScale_iff hscale (P := fun c => ∀ k < eigenvalues.size, c ≤ eigenvalues k)]
  refine (OrderedScalar.not_lt_iff_le hminimum hscale.small_mul_defined.2).trans ?_
  constructor
  · exact fun h i hi => OrderedScalar.trans _ _ _ h (hleast i hi)
  · intro h
    rw [Vec.minimum, hattained]
    exact h k (by omega)

theorem isNearlySymmetric_zero (m : Mat α) : IsNearlySymmetric 0 m :=
  ⟨1.0, isScale_one_of_empty fun _ ⟨_, hi, _⟩ => Nat.not_lt_zero _ hi, fun _ hi => absurd hi (Nat.not_lt_zero _)⟩

theorem isNearlyNonnegative_zero (eigenvalues : Vec α) : IsNearlyNonnegative 0 eigenvalues :=
  ⟨1.0, isScale_one_of_empty fun _ ⟨_, hi, _⟩ => Nat.not_lt_zero _ hi, fun _ hi => absurd hi (Nat.not_lt_zero _)⟩

end forms

/-! ## Bounds -/

/-- Two bounds pass the test exactly if a real number lies between them: the lower one if it is real, else
the upper one if that is, else zero. -/
theorem hasNoValue_eq_false_iff {lower upper : α} :
    hasNoValue lower upper = false ↔ HasRealBetween lower upper := by
  have htest : hasNoValue lower upper = false ↔ lower ≤ lower ∧ upper ≤ upper ∧ ¬ upper < lower ∧
      ¬ (lower ≤ Scalar.infinity ∧ Scalar.infinity ≤ lower) ∧
      ¬ (upper ≤ -Scalar.infinity ∧ -Scalar.infinity ≤ upper) := by
    unfold hasNoValue
    simp only [Bool.or_eq_false_iff, Scalar.isUndefined_eq_false_iff, decide_eq_false_iff_not, and_assoc,
      ← Scalar.same_iff, Bool.not_eq_true]
  rw [htest]
  constructor
  · rintro ⟨hlower, hupper, hcrossed, hlowest, hhighest⟩
    have hle : lower ≤ upper := (OrderedScalar.not_lt_iff_le hupper hlower).1 hcrossed
    have hlower_lt : lower < Scalar.infinity := by
      have hinfinity := OrderedScalar.le_infinity lower hlower
      exact (OrderedScalar.lt_iff _ _).2 ⟨hinfinity, fun h => hlowest ⟨hinfinity, h⟩⟩
    have hlt_upper : -Scalar.infinity < upper := by
      have hinfinity := DefinedScalar.neg_infinity_le upper hupper
      exact (OrderedScalar.lt_iff _ _).2 ⟨hinfinity, fun h => hhighest ⟨h, hinfinity⟩⟩
    have hneg := (OrderedScalar.refl_of_le _ _ (OrderedScalar.le_of_lt hlt_upper)).1
    have hpos := (OrderedScalar.refl_of_le _ _ (OrderedScalar.le_of_lt hlower_lt)).2
    rcases OrderedScalar.lt_or_le hneg hlower with hreal | hunbounded
    · exact ⟨lower, ⟨hreal, hlower_lt⟩, hlower, hle⟩
    · rcases OrderedScalar.lt_or_le hupper hpos with hreal | hunbounded'
      · exact ⟨upper, ⟨hlt_upper, hreal⟩, hle, hupper⟩
      · obtain ⟨hneg_zero, hzero_pos⟩ := DefinedScalar.zero_between (α := α)
        exact ⟨0.0, ⟨hneg_zero, hzero_pos⟩,
          OrderedScalar.trans _ _ _ hunbounded (OrderedScalar.le_of_lt hneg_zero),
          OrderedScalar.trans _ _ _ (OrderedScalar.le_of_lt hzero_pos) hunbounded'⟩
  · rintro ⟨r, ⟨hneg, hpos⟩, hlower, hupper⟩
    have hle := OrderedScalar.trans _ _ _ hlower hupper
    exact ⟨(OrderedScalar.refl_of_le _ _ hlower).1, (OrderedScalar.refl_of_le _ _ hupper).2,
      fun h => OrderedScalar.not_le_of_lt h hle,
      fun h => OrderedScalar.not_le_of_lt (OrderedScalar.lt_of_le_of_lt hlower hpos) h.2,
      fun h => OrderedScalar.not_le_of_lt (OrderedScalar.lt_of_lt_of_le hneg hupper) h.1⟩

/-! ## All checks -/

variable {spectrum : Mat α → Vec α} {p : Problem α}

theorem Accepted.wellFormed (heigenvalues : p.HasEigenvalues spectrum) (h : p.Accepted spectrum) :
    p.WellFormed spectrum := by
  have hshape := h.binaryQuadratic.shape h.numBinary_pos h.numBinary_pos
  have hfinite := Mat.allFinite_iff_isFinite.1 h.binaryQuadratic_finite
  have hforms : IsNearlySymmetric p.numContinuous p.continuousQuadratic ∧
      IsNearlyNonnegative p.numContinuous (spectrum p.continuousQuadratic) := by
    rcases Nat.eq_zero_or_pos p.numContinuous with hl | hl
    · rw [hl]
      exact ⟨isNearlySymmetric_zero _, isNearlyNonnegative_zero _⟩
    · obtain ⟨hr, hc⟩ := h.continuousQuadratic.shape hl hl
      have hentries := Mat.allFinite_iff_isFinite.1 h.continuousQuadratic_finite
      obtain ⟨hsymmetric, hconvex⟩ := h.continuousQuadratic_convex hl
      have hnearly := (isSymmetric_iff hl hr hc hentries).1 hsymmetric
      obtain ⟨hsize, hdefined⟩ := heigenvalues hl h.continuousQuadratic hentries hnearly
      exact ⟨hnearly, (isConvex_iff hl hsize hdefined).1 hconvex⟩
  exact {
    numBinary := h.numBinary_pos
    binaryQuadratic_shape := hshape
    binaryQuadratic_finite := hfinite
    binaryQuadratic_symmetric :=
      (isSymmetric_iff h.numBinary_pos hshape.1 hshape.2 hfinite).1 h.binaryQuadratic_symmetric
    continuousQuadratic_shape := h.continuousQuadratic
    continuousQuadratic_finite := Mat.allFinite_iff_isFinite.1 h.continuousQuadratic_finite
    continuousQuadratic_symmetric := hforms.1
    continuousQuadratic_convex := hforms.2
    binaryLinear_finite := Vec.allFinite_iff.1 h.binaryLinear_finite
    continuousLinear_finite := Vec.allFinite_iff.1 h.continuousLinear_finite
    constant_finite := h.constant_finite
    equalityRows_shape := h.equalityRows
    equalityRows_finite := Mat.allFinite_iff_isFinite.1 h.equalityRows_finite
    equalityRhs_finite := Vec.allFinite_iff.1 h.equalityRhs_finite
    inequalityRows_shape := h.inequalityRows
    inequalityRows_finite := Mat.allFinite_iff_isFinite.1 h.inequalityRows_finite
    inequalityRhs_finite := Vec.allFinite_iff.1 h.inequalityRhs_finite
    couplingBinary_shape := h.couplingBinary
    couplingBinary_finite := Mat.allFinite_iff_isFinite.1 h.couplingBinary_finite
    couplingContinuous_shape := h.couplingContinuous
    couplingContinuous_finite := Mat.allFinite_iff_isFinite.1 h.couplingContinuous_finite
    couplingRhs_finite := Vec.allFinite_iff.1 h.couplingRhs_finite
    bounds_size := ⟨h.lower_size, h.upper_size⟩
    bounds := fun j hj => hasNoValue_eq_false_iff.1 (h.hasValue j hj)
    binaryNames := h.binaryNames
    continuousNames := h.continuousNames }

theorem WellFormed.accepted (heigenvalues : p.HasEigenvalues spectrum) (h : p.WellFormed spectrum) :
    p.Accepted spectrum where
  numBinary_pos := h.numBinary
  binaryQuadratic := Or.inr (by simp [Mat.hasShape, h.binaryQuadratic_shape])
  binaryQuadratic_finite := Mat.allFinite_iff_isFinite.2 h.binaryQuadratic_finite
  binaryLinear_finite := Vec.allFinite_iff.2 h.binaryLinear_finite
  binaryQuadratic_symmetric := (isSymmetric_iff h.numBinary h.binaryQuadratic_shape.1 h.binaryQuadratic_shape.2
    h.binaryQuadratic_finite).2 h.binaryQuadratic_symmetric
  continuousQuadratic := h.continuousQuadratic_shape
  continuousQuadratic_finite := Mat.allFinite_iff_isFinite.2 h.continuousQuadratic_finite
  continuousLinear_finite := Vec.allFinite_iff.2 h.continuousLinear_finite
  continuousQuadratic_convex := fun hl => by
    obtain ⟨hr, hc⟩ := h.continuousQuadratic_shape.shape hl hl
    obtain ⟨hsize, hdefined⟩ := heigenvalues hl h.continuousQuadratic_shape h.continuousQuadratic_finite
      h.continuousQuadratic_symmetric
    exact ⟨(isSymmetric_iff hl hr hc h.continuousQuadratic_finite).2 h.continuousQuadratic_symmetric,
      (isConvex_iff hl hsize hdefined).2 h.continuousQuadratic_convex⟩
  constant_finite := h.constant_finite
  equalityRows := h.equalityRows_shape
  equalityRows_finite := Mat.allFinite_iff_isFinite.2 h.equalityRows_finite
  equalityRhs_finite := Vec.allFinite_iff.2 h.equalityRhs_finite
  inequalityRows := h.inequalityRows_shape
  inequalityRows_finite := Mat.allFinite_iff_isFinite.2 h.inequalityRows_finite
  inequalityRhs_finite := Vec.allFinite_iff.2 h.inequalityRhs_finite
  couplingBinary := h.couplingBinary_shape
  couplingContinuous := h.couplingContinuous_shape
  couplingBinary_finite := Mat.allFinite_iff_isFinite.2 h.couplingBinary_finite
  couplingContinuous_finite := Mat.allFinite_iff_isFinite.2 h.couplingContinuous_finite
  couplingRhs_finite := Vec.allFinite_iff.2 h.couplingRhs_finite
  lower_size := h.bounds_size.1
  upper_size := h.bounds_size.2
  hasValue := fun j hj => hasNoValue_eq_false_iff.2 (h.bounds j hj)
  binaryNames := h.binaryNames
  continuousNames := h.continuousNames

/-- Whatever a problem's data are, the checks read only what exists and combine only what conforms; they are
passed exactly by the well-formed problems, and every other one gets a defect. -/
theorem validate_iff_wellFormed (heigenvalues : p.HasEigenvalues spectrum) :
    (p.validate? spectrum).run = some (p.validate spectrum) ∧
      (p.validate spectrum = .ok () ↔ p.WellFormed spectrum) ∧
      (¬ p.WellFormed spectrum → ∃ defect, p.validate spectrum = .error defect) := by
  have hiff : p.validate spectrum = .ok () ↔ p.WellFormed spectrum :=
    validate_eq_ok_iff.trans ⟨fun h => h.wellFormed heigenvalues, fun h => h.accepted heigenvalues⟩
  refine ⟨validate?_run fun hl hfits hfinite hsymmetric => ?_, hiff, fun hnot => ?_⟩
  · obtain ⟨hr, hc⟩ := hfits.shape hl hl
    have hentries := Mat.allFinite_iff_isFinite.1 hfinite
    exact (heigenvalues hl hfits hentries ((isSymmetric_iff hl hr hc hentries).1 hsymmetric)).1
  · cases hresult : p.validate spectrum with
    | error defect => exact ⟨defect, rfl⟩
    | ok => exact absurd (hiff.1 hresult) hnot

omit [DefinedScalar α] in
/-- One binary variable, and one continuous variable on a half-line. -/
def halfLine : Problem α :=
  { unconstrained (Mat.ofFn 1 1 fun _ _ => 2.0) (Vec.const 1 1.0) with
    continuousQuadratic := Mat.ofFn 1 1 fun _ _ => 0.5
    continuousLinear := Vec.const 1 1.0
    lower := Vec.const 1 0.0
    upper := Vec.const 1 Scalar.infinity }

theorem validate_iff_wellFormed_halfLine :
    (halfLine : Problem Float).HasEigenvalues Spectrum.ofMat ∧
      (halfLine.validate? (Spectrum.ofMat (α := Float))).run = some (halfLine.validate Spectrum.ofMat) ∧
      (halfLine : Problem Float).WellFormed Spectrum.ofMat := by
  have heigenvalues : (halfLine : Problem Float).HasEigenvalues Spectrum.ofMat := by
    have hdefined : ∀ k < 1, Spectrum.ofMat (Mat.ofFn 1 1 fun _ _ => (0.5 : Float)) k ≤
        Spectrum.ofMat (Mat.ofFn 1 1 fun _ _ => (0.5 : Float)) k := by
      decide +kernel
    exact fun _ _ _ _ => ⟨Vec.size_ofFn _ _, hdefined⟩
  obtain ⟨hrun, hiff, -⟩ := validate_iff_wellFormed heigenvalues
  have hpassed : ((halfLine : Problem Float).validate Spectrum.ofMat).isOk = true := by
    decide +kernel
  refine ⟨heigenvalues, hrun, hiff.1 ?_⟩
  cases hresult : (halfLine : Problem Float).validate Spectrum.ofMat with
  | error defect =>
    rw [hresult] at hpassed
    cases hpassed
  | ok => rfl

end Problem

end BinarySplitting
