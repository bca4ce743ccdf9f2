import Mathlib.Data.Matrix.Mul
import Mathlib.LinearAlgebra.Matrix.Symmetric
import BinarySplitting.Linear.Mat
import BinarySplitting.Proofs.Scalar.Exact

/-!
# Vectors and matrices of reals

`Vec.ofReal` and `Mat.ofReal` embed the real vectors and matrices of Mathlib into the exact ones.
Every operation on embedded vectors and matrices of matching sizes is the embedding of the
operation on reals (`Vec.ofReal_add`, `Vec.dot_ofReal`, `Mat.mulVec_ofReal`, …), and every finite
vector or matrix is embedded (`Vec.eq_ofReal`, `Mat.eq_ofReal`). An identity between exact numbers
is proved by carrying both sides to `ℝ` with these lemmas.
-/

namespace BinarySplitting

open Matrix

/-! ## Sums -/

theorem Scalar.sum_real {n : ℕ} {f : ℕ → Exact} {g : Fin n → ℝ} (h : ∀ i : Fin n, f i = .real (g i)) :
    Scalar.sum n f = .real (∑ i, g i) := by
  induction n with
  | zero => simp [Scalar.sum]
  | succ n ih =>
    rw [Scalar.sum, ih fun i => h i.castSucc, Fin.sum_univ_castSucc]
    have hlast : f n = .real (g (Fin.last n)) := h (Fin.last n)
    rw [hlast, Exact.real_add]

/-! ## Vectors -/

namespace Vec

variable {n m : ℕ}

def ofReal (f : Fin n → ℝ) : Vec Exact := ⟨Array.ofFn fun i => .real (f i)⟩

@[simp] theorem size_ofReal (f : Fin n → ℝ) : (ofReal f).size = n := by
  simp [ofReal, size]

theorem get_ofReal (f : Fin n → ℝ) {i : ℕ} (hi : i < n) : ofReal f i = .real (f ⟨i, hi⟩) := by
  simp [ofReal, get, Array.getD, hi]

@[simp] theorem get_ofReal_fin (f : Fin n → ℝ) (i : Fin n) : ofReal f i = .real (f i) :=
  get_ofReal f i.isLt

theorem ofReal_inj {f g : Fin n → ℝ} : ofReal f = ofReal g ↔ f = g := by
  refine ⟨fun h => funext fun i => ?_, congrArg ofReal⟩
  have hentry := congrArg (fun v : Vec Exact => v i) h
  simpa using hentry

theorem ofFn_eq_ofReal {g : ℕ → Exact} {f : Fin n → ℝ} (h : ∀ i : Fin n, g i = .real (f i)) :
    ofFn n g = ofReal f := by
  unfold ofFn ofReal
  congr 2
  funext i
  exact h i

theorem allFinite_iff {α : Type} [Scalar α] {v : Vec α} :
    v.allFinite = true ↔ ∀ i < v.size, Scalar.isFinite (v i) = true := by
  unfold allFinite
  rw [Array.all_eq_true]
  constructor
  · intro h i hi
    have hlt : i < v.entries.size := hi
    simpa [get, Array.getD, hlt] using h i hlt
  · intro h i hi
    simpa [get, Array.getD, hi] using h i hi

theorem eq_ofReal {v : Vec Exact} (hn : v.size = n) (hv : v.allFinite = true) :
    ∃ f : Fin n → ℝ, v = ofReal f := by
  subst hn
  have hreal : ∀ i : Fin v.size, ∃ r : ℝ, v i = .real r := fun i =>
    Exact.isFinite_iff.1 (allFinite_iff.1 hv i i.isLt)
  choose f hf using hreal
  refine ⟨f, ext (by simp) fun i hi => ?_⟩
  rw [get_ofReal f hi]
  exact hf ⟨i, hi⟩

theorem allFinite_ofReal (f : Fin n → ℝ) : (ofReal f).allFinite = true := by
  refine allFinite_iff.2 fun i hi => Exact.isFinite_iff.2 ?_
  rw [size_ofReal] at hi
  exact ⟨f ⟨i, hi⟩, get_ofReal f hi⟩

theorem size_and_allFinite_of_eq_ofReal {v : Vec Exact} {f : Fin n → ℝ} (h : v = ofReal f) :
    v.size = n ∧ v.allFinite = true := by
  rw [h]
  exact ⟨size_ofReal f, allFinite_ofReal f⟩

theorem zip_ofReal {op : Exact → Exact → Exact} {rop : ℝ → ℝ → ℝ}
    (hop : ∀ a b : ℝ, op (.real a) (.real b) = .real (rop a b)) (f g : Fin n → ℝ) :
    zip op (ofReal f) (ofReal g) = ofReal fun i => rop (f i) (g i) := by
  unfold zip
  rw [size_ofReal, size_ofReal, max_self]
  exact ofFn_eq_ofReal fun i => by simp [hop]

theorem map_ofReal {op : Exact → Exact} {rop : ℝ → ℝ} (hop : ∀ a : ℝ, op (.real a) = .real (rop a))
    (f : Fin n → ℝ) : (ofReal f).map op = ofReal fun i => rop (f i) := by
  apply ext (by simp)
  intro i hi
  rw [size_map, size_ofReal] at hi
  rw [get_map op (by simpa using hi), get_ofReal _ hi, get_ofReal _ hi, hop]

@[simp] theorem ofReal_add (f g : Fin n → ℝ) : ofReal f + ofReal g = ofReal (f + g) :=
  zip_ofReal Exact.real_add f g

@[simp] theorem ofReal_sub (f g : Fin n → ℝ) : ofReal f - ofReal g = ofReal (f - g) :=
  zip_ofReal Exact.real_sub f g

@[simp] theorem ofReal_neg (f : Fin n → ℝ) : -ofReal f = ofReal (-f) :=
  map_ofReal Exact.real_neg f

@[simp] theorem ofReal_smul (a : ℝ) (f : Fin n → ℝ) : Exact.real a • ofReal f = ofReal (a • f) :=
  map_ofReal (Exact.real_mul a) f

theorem ofReal_divBy {a : ℝ} (ha : a ≠ 0) (f : Fin n → ℝ) :
    (ofReal f).divBy (.real a) = ofReal (a⁻¹ • f) := by
  refine (map_ofReal (fun b => Exact.real_div b ha) f).trans ?_
  congr 1
  funext i
  simp [div_eq_inv_mul]

@[simp] theorem zero_eq_ofReal (n : ℕ) : (zero n : Vec Exact) = ofReal (0 : Fin n → ℝ) := by
  unfold zero const
  exact ofFn_eq_ofReal fun _ => Exact.zero_literal

theorem const_eq_ofReal (n : ℕ) (a : ℝ) : const n (.real a) = ofReal fun _ : Fin n => a :=
  ofFn_eq_ofReal fun _ => rfl

@[simp] theorem dot_ofReal (f g : Fin n → ℝ) : (ofReal f).dot (ofReal g) = .real (f ⬝ᵥ g) := by
  unfold dot
  rw [size_ofReal, size_ofReal, max_self]
  exact Scalar.sum_real fun i => by simp

theorem norm_ofReal (f : Fin n → ℝ) : (ofReal f).norm = .real √(f ⬝ᵥ f) := by
  have hnonneg : 0 ≤ f ⬝ᵥ f := Finset.sum_nonneg fun i _ => mul_self_nonneg (f i)
  rw [norm, dot_ofReal, Exact.real_sqrt hnonneg]

theorem norm_smul_ofReal {a : ℝ} (ha : 0 ≤ a) (f : Fin n → ℝ) :
    (ofReal (a • f)).norm = .real a * (ofReal f).norm := by
  rw [norm_ofReal, norm_ofReal, smul_dotProduct, dotProduct_smul, smul_eq_mul, smul_eq_mul, ← mul_assoc,
    Real.sqrt_mul (mul_self_nonneg a), Real.sqrt_mul_self ha, Exact.real_mul]

theorem norm_mul_self_ofReal (f : Fin n → ℝ) :
    (ofReal f).norm * (ofReal f).norm = .real (f ⬝ᵥ f) := by
  have hnonneg : 0 ≤ f ⬝ᵥ f := Finset.sum_nonneg fun i _ => mul_self_nonneg (f i)
  rw [norm_ofReal, Exact.real_mul, Real.mul_self_sqrt hnonneg]

theorem ofReal_append (f : Fin n → ℝ) (g : Fin m → ℝ) :
    ofReal f ++ ofReal g = ofReal (Fin.append f g) := by
  apply ext (by simp)
  intro i hi
  rw [size_append, size_ofReal, size_ofReal] at hi
  rw [get_append, size_ofReal, get_ofReal _ hi]
  split
  · next hlt => rw [get_ofReal f hlt]; exact congrArg Exact.real (Fin.append_left f g ⟨i, hlt⟩).symm
  · next hge =>
    rw [get_ofReal g (by omega)]
    have hnat : (⟨i, hi⟩ : Fin (n + m)) = Fin.natAdd n ⟨i - n, by omega⟩ := Fin.ext (by simp; omega)
    rw [hnat, Fin.append_right]

theorem slice_ofReal {k : ℕ} (f : Fin k → ℝ) {start : ℕ} (h : start + n ≤ k) :
    (ofReal f).slice start n = ofReal fun i : Fin n => f ⟨start + i, by omega⟩ :=
  ofFn_eq_ofReal fun _ => get_ofReal f _

theorem exists_slice_ofReal {v : Vec Exact} (hfin : v.allFinite = true) {start : ℕ}
    (h : start + n ≤ v.size) : ∃ f : Fin n → ℝ, v.slice start n = ofReal f := by
  obtain ⟨g, hg⟩ := eq_ofReal (n := v.size) rfl hfin
  rw [hg, slice_ofReal g h]
  exact ⟨_, rfl⟩

end Vec

/-! ## Matrices -/

namespace Mat

variable {r c k : ℕ}

def ofReal (M : Matrix (Fin r) (Fin c) ℝ) : Mat Exact :=
  ⟨r, c, Vector.ofFn fun i => Vector.ofFn fun j => .real (M i j)⟩

@[simp] theorem rows_ofReal (M : Matrix (Fin r) (Fin c) ℝ) : (ofReal M).rows = r := rfl

@[simp] theorem cols_ofReal (M : Matrix (Fin r) (Fin c) ℝ) : (ofReal M).cols = c := rfl

theorem get_ofReal (M : Matrix (Fin r) (Fin c) ℝ) {i j : ℕ} (hi : i < r) (hj : j < c) :
    ofReal M i j = .real (M ⟨i, hi⟩ ⟨j, hj⟩) := by
  simp [ofReal, get, hi, hj]

@[simp] theorem get_ofReal_fin (M : Matrix (Fin r) (Fin c) ℝ) (i : Fin r) (j : Fin c) :
    ofReal M i j = .real (M i j) :=
  get_ofReal M i.isLt j.isLt

theorem ofFn_eq_ofReal {g : ℕ → ℕ → Exact} {M : Matrix (Fin r) (Fin c) ℝ}
    (h : ∀ (i : Fin r) (j : Fin c), g i j = .real (M i j)) : ofFn r c g = ofReal M := by
  unfold ofFn ofReal
  congr 2
  funext i
  congr 1
  funext j
  exact h i j

theorem ofReal_inj {M N : Matrix (Fin r) (Fin c) ℝ} : ofReal M = ofReal N ↔ M = N := by
  refine ⟨fun h => ?_, congrArg ofReal⟩
  ext i j
  have hentry := congrArg (fun m : Mat Exact => m i j) h
  simpa using hentry

theorem eq_ofReal {m : Mat Exact} (hm : m.hasShape r c = true) (hfin : m.allFinite = true) :
    ∃ M : Matrix (Fin r) (Fin c) ℝ, m = ofReal M := by
  obtain ⟨hr, hc⟩ : m.rows = r ∧ m.cols = c := by simpa [hasShape] using hm
  subst hr hc
  have hreal : ∀ (i : Fin m.rows) (j : Fin m.cols), ∃ a : ℝ, m i j = .real a := by
    intro i j
    have hrow := Vector.all_eq_true.1 hfin i i.isLt
    have hentry := Vector.all_eq_true.1 hrow j j.isLt
    rw [get, dif_pos ⟨i.isLt, j.isLt⟩]
    exact Exact.isFinite_iff.1 hentry
  choose M hM using hreal
  refine ⟨Matrix.of M, ext rfl rfl fun i hi j hj => ?_⟩
  rw [get_ofReal _ hi hj]
  exact hM ⟨i, hi⟩ ⟨j, hj⟩

theorem allFinite_ofReal (M : Matrix (Fin r) (Fin c) ℝ) : (ofReal M).allFinite = true := by
  refine Vector.all_eq_true.2 fun i hi => Vector.all_eq_true.2 fun j hj => ?_
  exact Exact.isFinite_iff.2 ⟨M ⟨i, hi⟩ ⟨j, hj⟩, by simp [ofReal]⟩

theorem zip_ofReal {op : Exact → Exact → Exact} {rop : ℝ → ℝ → ℝ}
    (hop : ∀ a b : ℝ, op (.real a) (.real b) = .real (rop a b)) (M N : Matrix (Fin r) (Fin c) ℝ) :
    zip op (ofReal M) (ofReal N) = ofReal (Matrix.of fun i j => rop (M i j) (N i j)) := by
  unfold zip
  rw [rows_ofReal, rows_ofReal, cols_ofReal, cols_ofReal, max_self, max_self]
  exact ofFn_eq_ofReal fun i j => by simp [hop]

@[simp] theorem ofReal_add (M N : Matrix (Fin r) (Fin c) ℝ) :
    ofReal M + ofReal N = ofReal (M + N) :=
  zip_ofReal Exact.real_add M N

@[simp] theorem ofReal_sub (M N : Matrix (Fin r) (Fin c) ℝ) :
    ofReal M - ofReal N = ofReal (M - N) :=
  zip_ofReal Exact.real_sub M N

@[simp] theorem ofReal_smul (a : ℝ) (M : Matrix (Fin r) (Fin c) ℝ) :
    Exact.real a • ofReal M = ofReal (a • M) := by
  change ofFn r c (fun i j => .real a * ofReal M i j) = _
  exact ofFn_eq_ofReal fun i j => by simp

theorem identity_eq_ofReal (n : ℕ) : (identity n : Mat Exact) = ofReal (1 : Matrix (Fin n) (Fin n) ℝ) := by
  unfold identity
  refine ofFn_eq_ofReal fun i j => ?_
  by_cases hij : i = j
  · subst hij
    simp
  · simp [hij, Fin.val_ne_of_ne hij]

@[simp] theorem transpose_ofReal (M : Matrix (Fin r) (Fin c) ℝ) : (ofReal M).transpose = ofReal Mᵀ := by
  change ofFn c r (fun i j => ofReal M j i) = _
  exact ofFn_eq_ofReal fun i j => by simp

@[simp] theorem ofReal_mul (M : Matrix (Fin r) (Fin c) ℝ) (N : Matrix (Fin c) (Fin k) ℝ) :
    ofReal M * ofReal N = ofReal (M * N) := by
  change ofFn r k (fun i j => Scalar.sum (max c c) fun l => ofReal M i l * ofReal N l j) = _
  apply ofFn_eq_ofReal
  intro i j
  rw [max_self, Matrix.mul_apply]
  exact Scalar.sum_real fun l => by simp

@[simp] theorem mulVec_ofReal (M : Matrix (Fin r) (Fin c) ℝ) (f : Fin c → ℝ) :
    (ofReal M).mulVec (Vec.ofReal f) = Vec.ofReal (M *ᵥ f) := by
  change Vec.ofFn r (fun i => Scalar.sum (max c (Vec.ofReal f).size) fun j =>
    ofReal M i j * Vec.ofReal f j) = _
  apply Vec.ofFn_eq_ofReal
  intro i
  rw [Vec.size_ofReal, max_self]
  exact Scalar.sum_real fun l => by simp

@[simp] theorem quadraticForm_ofReal (M : Matrix (Fin r) (Fin r) ℝ) (f : Fin r → ℝ) :
    (ofReal M).quadraticForm (Vec.ofReal f) = .real (f ⬝ᵥ M *ᵥ f) := by
  rw [quadraticForm, mulVec_ofReal, Vec.dot_ofReal]

@[simp] theorem symmetricPart_ofReal (M : Matrix (Fin r) (Fin r) ℝ) :
    (ofReal M).symmetricPart = ofReal ((1 / 2 : ℝ) • (M + Mᵀ)) := by
  rw [symmetricPart, transpose_ofReal, ofReal_add, Exact.half_literal, ofReal_smul]

@[simp] theorem addDiagonal_ofReal (M : Matrix (Fin r) (Fin r) ℝ) (a : ℝ) :
    (ofReal M).addDiagonal (.real a) = ofReal (M + a • (1 : Matrix (Fin r) (Fin r) ℝ)) := by
  change ofFn r r (fun i j => if i = j then ofReal M i j + .real a else ofReal M i j) = _
  apply ofFn_eq_ofReal
  intro i j
  by_cases hij : i = j
  · subst hij
    simp
  · simp [hij, Fin.val_ne_of_ne hij]

end Mat

/-! ## Quadratic forms -/

section forms

variable {r c : ℕ} (x : Fin r → ℝ)

theorem dotProduct_symmetricPart (M : Matrix (Fin r) (Fin r) ℝ) :
    x ⬝ᵥ ((1 / 2 : ℝ) • (M + Mᵀ)) *ᵥ x = x ⬝ᵥ M *ᵥ x := by
  have htranspose : x ⬝ᵥ Mᵀ *ᵥ x = x ⬝ᵥ M *ᵥ x := by
    rw [mulVec_transpose, dotProduct_comm, ← dotProduct_mulVec]
  rw [smul_mulVec, add_mulVec, dotProduct_smul, dotProduct_add, htranspose, smul_eq_mul]
  ring

theorem dotProduct_gram (M : Matrix (Fin c) (Fin r) ℝ) :
    x ⬝ᵥ (Mᵀ * M) *ᵥ x = M *ᵥ x ⬝ᵥ M *ᵥ x := by
  rw [← mulVec_mulVec, mulVec_transpose, dotProduct_comm x, ← dotProduct_mulVec]

theorem dotProduct_sub_self (v w : Fin r → ℝ) :
    (v - w) ⬝ᵥ (v - w) = v ⬝ᵥ v - 2 * (w ⬝ᵥ v) + w ⬝ᵥ w := by
  rw [sub_dotProduct, dotProduct_sub, dotProduct_sub, dotProduct_comm v w]
  ring

end forms

end BinarySplitting
