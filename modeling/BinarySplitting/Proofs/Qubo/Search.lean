import Mathlib.LinearAlgebra.Matrix.Notation
import BinarySplitting.Proofs.Qubo.GrayCode
import BinarySplitting.Proofs.Qubo.Minimiser

/-!
# The exhaustive search finds the first minimiser

In exact arithmetic the search returns, of the binary vectors of least value, the one that comes
first in the order of the reflected Gray code.

The proof is an invariant of the walk (`Walk.At`). After `k` flips it stands at the vector with
number `k`, the product and the value that it carries along are those of that vector, and the best
vector is the first one of least value among the numbers up to `k`. One flip keeps it
(`Walk.At.flip`): at index `i` it adds `±1` to the entry `i`, and the quadratic form of a symmetric
matrix `S` then changes by `±2 (Sx)ᵢ + Sᵢᵢ` (`value_add_single`).
-/

namespace BinarySplitting.Qubo

open Matrix

/-- The binary vector with a number in the order of the reflected Gray code. -/
def grayVec {α : Type} [Scalar α] (n k : ℕ) : Vec α :=
  Vec.ofFn n fun i => if (grayCode k).testBit i then 1.0 else 0.0

def grayBits (n k : ℕ) (i : Fin n) : ℝ := if (grayCode k).testBit i then 1 else 0

variable {n : ℕ}

theorem grayVec_eq_ofReal (n k : ℕ) : (grayVec n k : Vec Exact) = Vec.ofReal (grayBits n k) := by
  apply Vec.ofFn_eq_ofReal
  intro i
  unfold grayBits
  split <;> simp

theorem grayBits_eq (n k : ℕ) (i : Fin n) : grayBits n k i = 0 ∨ grayBits n k i = 1 := by
  unfold grayBits
  split <;> simp

theorem isBinary_grayVec (n k : ℕ) : (grayVec n k : Vec Exact).IsBinary n := by
  rw [grayVec_eq_ofReal]
  exact Vec.isBinary_ofReal (grayBits_eq n k)

theorem exists_grayVec {x : Vec Exact} (hx : x.IsBinary n) : ∃ k < 2 ^ n, x = grayVec n k := by
  obtain ⟨f, hf, rfl⟩ := hx.exists_ofReal
  obtain ⟨k, hk, hcode⟩ := exists_grayCode (Nat.ofBits_lt_two_pow fun i : Fin n => decide (f i = 1))
  refine ⟨k, hk, ?_⟩
  rw [grayVec_eq_ofReal]
  congr 1
  funext i
  rw [grayBits, hcode, Nat.testBit_ofBits_lt _ i i.isLt]
  rcases hf i with h | h <;> simp [h]

def flipChange (n k : ℕ) (i : Fin n) : ℝ := if (grayCode k).testBit i then -1 else 1

theorem flipChange_mul_self (n k : ℕ) (i : Fin n) : flipChange n k i * flipChange n k i = 1 := by
  unfold flipChange
  split <;> norm_num

theorem grayBits_succ {k : ℕ} (i : Fin n) (hi : (i : ℕ) = lowestSetBit (k + 1)) :
    grayBits n (k + 1) = grayBits n k + Pi.single i (flipChange n k i) := by
  funext j
  rw [Pi.add_apply, grayBits, grayBits, testBit_grayCode_succ, ← hi]
  by_cases hj : j = i
  · subst hj
    rw [Pi.single_eq_same, flipChange]
    cases (grayCode k).testBit j <;> norm_num
  · rw [Pi.single_eq_of_ne hj]
    simp [Fin.val_ne_of_ne hj]

/-! ## One flip -/

theorem mulVec_add_single (S : Matrix (Fin n) (Fin n) ℝ) (g : Fin n → ℝ) (i j : Fin n) (d : ℝ) :
    (S *ᵥ (g + Pi.single i d)) j = (S *ᵥ g) j + d * S j i := by
  rw [mulVec_add, Pi.add_apply]
  congr 1
  rw [mulVec, dotProduct_single, mul_comm]

theorem value_add_single {S : Matrix (Fin n) (Fin n) ℝ} (hS : S.IsSymm) (l g : Fin n → ℝ) (c : ℝ)
    (i : Fin n) {d : ℝ} (hd : d * d = 1) :
    (g + Pi.single i d) ⬝ᵥ S *ᵥ (g + Pi.single i d) + l ⬝ᵥ (g + Pi.single i d) + c =
      g ⬝ᵥ S *ᵥ g + l ⬝ᵥ g + c + (d * (2 * (S *ᵥ g) i + l i) + S i i) := by
  have hcross : g ⬝ᵥ S *ᵥ Pi.single i d = (S *ᵥ g) i * d := by
    rw [dotProduct_mulVec, dotProduct_single, ← mulVec_transpose, hS.eq]
  have hsquare : Pi.single i d ⬝ᵥ S *ᵥ Pi.single i d = S i i := by
    rw [single_dotProduct, mulVec, dotProduct_single, mul_comm (S i i), ← mul_assoc, hd, one_mul]
  rw [mulVec_add, add_dotProduct, dotProduct_add, dotProduct_add, dotProduct_add, hcross, hsquare,
    single_dotProduct, dotProduct_single]
  ring

section flip

variable (S : Matrix (Fin n) (Fin n) ℝ) (k : ℕ) (i : Fin n)

theorem flipChange_eq :
    (if Scalar.same (Vec.ofReal (grayBits n k) i) 0.0 then (1.0 : Exact) else -1.0) =
      .real (flipChange n k i) := by
  rw [Vec.get_ofReal_fin, Exact.zero_literal, grayBits, flipChange]
  cases (grayCode k).testBit i <;> simp [Exact.same_real]

theorem set_grayBits (hi : (i : ℕ) = lowestSetBit (k + 1)) :
    (Vec.ofReal (grayBits n k)).set i
        (Vec.ofReal (grayBits n k) i + .real (flipChange n k i)) =
      Vec.ofReal (grayBits n (k + 1)) := by
  rw [grayBits_succ i hi]
  apply Vec.ext (by simp)
  intro j hj
  rw [Vec.size_set, Vec.size_ofReal] at hj
  rw [Vec.get_set _ (by simpa using hj), Vec.get_ofReal _ hj, Vec.get_ofReal _ hj]
  by_cases hij : (i : ℕ) = j
  · have hj' : (⟨j, hj⟩ : Fin n) = i := Fin.ext hij.symm
    rw [if_pos hij, hj', Vec.get_ofReal_fin, Exact.real_add, Pi.add_apply, Pi.single_eq_same]
  · have hj' : (⟨j, hj⟩ : Fin n) ≠ i := fun h => hij (congrArg Fin.val h).symm
    rw [if_neg hij, Pi.add_apply, Pi.single_eq_of_ne hj', add_zero]

theorem product_grayBits (hi : (i : ℕ) = lowestSetBit (k + 1)) :
    (Vec.ofFn n fun j => Vec.ofReal (S *ᵥ grayBits n k) j + .real (flipChange n k i) *
        Mat.ofReal S j i) =
      Vec.ofReal (S *ᵥ grayBits n (k + 1)) := by
  rw [grayBits_succ i hi]
  apply Vec.ofFn_eq_ofReal
  intro j
  rw [mulVec_add_single]
  simp

end flip

/-! ## The walk -/

/-- The invariant of the walk after a number of flips. -/
structure Walk.At (q : Qubo Exact) (k : ℕ) (w : Walk Exact) : Prop where
  x : w.x = grayVec q.numVariables k
  product : w.product = q.quadratic.symmetricPart.mulVec w.x
  value : w.value = q.value w.x
  best : ∃ j ≤ k, w.bestX = grayVec q.numVariables j ∧ w.bestValue = q.value w.bestX ∧
    (∀ i ≤ k, q.value w.bestX ≤ q.value (grayVec q.numVariables i)) ∧
    ∀ i < j, q.value w.bestX < q.value (grayVec q.numVariables i)

variable (Q : Matrix (Fin n) (Fin n) ℝ) (l : Fin n → ℝ) (c : ℝ)

theorem value_grayVec (k : ℕ) :
    (ofReal Q l c).value (grayVec n k) =
      .real (grayBits n k ⬝ᵥ ((1 / 2 : ℝ) • (Q + Qᵀ)) *ᵥ grayBits n k + l ⬝ᵥ grayBits n k + c) := by
  rw [grayVec_eq_ofReal, value_ofReal, dotProduct_symmetricPart]

theorem value_grayVec_succ {k : ℕ} (i : Fin n) (hi : (i : ℕ) = lowestSetBit (k + 1)) :
    (ofReal Q l c).value (grayVec n k) + (.real (flipChange n k i) *
        (2.0 * Vec.ofReal (((1 / 2 : ℝ) • (Q + Qᵀ)) *ᵥ grayBits n k) i + Vec.ofReal l i) +
        Mat.ofReal ((1 / 2 : ℝ) • (Q + Qᵀ)) i i) =
      (ofReal Q l c).value (grayVec n (k + 1)) := by
  have hsymm : ((1 / 2 : ℝ) • (Q + Qᵀ)).IsSymm := (isSymm_add_transpose_self Q).smul _
  rw [value_grayVec, value_grayVec, grayBits_succ i hi,
    value_add_single hsymm l _ c i (flipChange_mul_self n k i)]
  simp only [Vec.get_ofReal_fin, Mat.get_ofReal_fin, Exact.two_literal, Exact.real_mul,
    Exact.real_add]

/-- A walk that takes a value into account keeps the first one of least value. -/
theorem best_step {q : Qubo Exact} {k : ℕ} {best next : Vec Exact}
    (hnext : next = grayVec q.numVariables (k + 1))
    (htotal : q.value next < q.value best ∨ q.value best ≤ q.value next)
    (h : ∃ j ≤ k, best = grayVec q.numVariables j ∧
      (∀ i ≤ k, q.value best ≤ q.value (grayVec q.numVariables i)) ∧
      ∀ i < j, q.value best < q.value (grayVec q.numVariables i)) :
    ∃ j ≤ k + 1, (if q.value next < q.value best then next else best) =
        grayVec q.numVariables j ∧
      (∀ i ≤ k + 1, q.value (if q.value next < q.value best then next else best) ≤
        q.value (grayVec q.numVariables i)) ∧
      ∀ i < j, q.value (if q.value next < q.value best then next else best) <
        q.value (grayVec q.numVariables i) := by
  obtain ⟨j, hj, hbest, hleast, hfirst⟩ := h
  by_cases hlt : q.value next < q.value best
  · simp only [if_pos hlt]
    have hearlier : ∀ i < k + 1, q.value next < q.value (grayVec q.numVariables i) := fun i hi =>
      OrderedScalar.lt_of_lt_of_le hlt (hleast i (Nat.lt_succ_iff.1 hi))
    refine ⟨k + 1, le_rfl, hnext, fun i hi => ?_, hearlier⟩
    rcases Nat.lt_or_eq_of_le hi with h | h
    · exact OrderedScalar.le_of_lt (hearlier i h)
    · rw [h, ← hnext]
      exact (OrderedScalar.refl_of_le _ _ (OrderedScalar.le_of_lt hlt)).1
  · simp only [if_neg hlt]
    refine ⟨j, Nat.le_succ_of_le hj, hbest, fun i hi => ?_, hfirst⟩
    rcases Nat.lt_or_eq_of_le hi with h | h
    · exact hleast i (Nat.lt_succ_iff.1 h)
    · rw [h, ← hnext]
      exact htotal.resolve_left hlt

theorem Walk.At.start : Walk.At (ofReal Q l c) 0 (Walk.start (ofReal Q l c)) := by
  have hzero : (Vec.zero n : Vec Exact) = grayVec n 0 := by
    rw [grayVec_eq_ofReal, Vec.zero_eq_ofReal]
    congr 1
    funext i
    simp [grayBits, grayCode]
  have hvalue : (ofReal Q l c).value (Vec.zero n) = .real c := by
    rw [Vec.zero_eq_ofReal, value_ofReal]
    simp
  have hle : Exact.real c ≤ .real c := Exact.real_le_real.2 le_rfl
  unfold Walk.start
  simp only [numVariables_ofReal]
  refine ⟨?_, ?_, ?_, 0, le_rfl, ?_, ?_, ?_, ?_⟩
  · simpa using hzero
  · simp [ofReal]
  · exact hvalue.symm
  · simpa using hzero
  · exact hvalue.symm
  · intro i hi
    rw [Nat.le_zero.1 hi, numVariables_ofReal, ← hzero, hvalue]
    exact hle
  · intro i hi
    omega

/-- A flip at the lowest set bit moves the walk from one number to the next. -/
theorem Walk.flip_grayVec {k : ℕ} (i : Fin n) (hi : (i : ℕ) = lowestSetBit (k + 1)) (best : Vec Exact) :
    Walk.flip (ofReal Q l c).quadratic.symmetricPart (ofReal Q l c).linear
        ⟨grayVec n k, (ofReal Q l c).quadratic.symmetricPart.mulVec (grayVec n k),
          (ofReal Q l c).value (grayVec n k), best, (ofReal Q l c).value best⟩ i =
      let next : Vec Exact := grayVec n (k + 1)
      let best' := if (ofReal Q l c).value next < (ofReal Q l c).value best then next else best
      ⟨next, (ofReal Q l c).quadratic.symmetricPart.mulVec next, (ofReal Q l c).value next, best',
        (ofReal Q l c).value best'⟩ := by
  have hform : (ofReal Q l c).quadratic.symmetricPart = Mat.ofReal ((1 / 2 : ℝ) • (Q + Qᵀ)) :=
    Mat.symmetricPart_ofReal Q
  have hlinear : (ofReal Q l c).linear = Vec.ofReal l := rfl
  have hx := set_grayBits k i hi
  have hproduct := product_grayBits ((1 / 2 : ℝ) • (Q + Qᵀ)) k i hi
  have hvalue := value_grayVec_succ Q l c i hi
  simp only [Walk.flip, hform, hlinear, grayVec_eq_ofReal, Mat.mulVec_ofReal, Vec.size_ofReal,
    flipChange_eq] at hvalue ⊢
  rw [hvalue, hx, hproduct]
  split <;> rfl

theorem Walk.At.flip {k : ℕ} {w : Walk Exact} (hk : k + 1 < 2 ^ n) (h : Walk.At (ofReal Q l c) k w) :
    Walk.At (ofReal Q l c) (k + 1)
      (w.flip (ofReal Q l c).quadratic.symmetricPart (ofReal Q l c).linear (lowestSetBit (k + 1))) := by
  obtain ⟨x, product, value, best, bestValue⟩ := w
  obtain ⟨hx, hproduct, hvalue, hbest⟩ := h
  simp only [numVariables_ofReal] at hx hproduct hvalue hbest
  obtain ⟨j, hj, hgray, hbestValue, hfirst⟩ := hbest
  subst hvalue hproduct hbestValue hx
  let i : Fin n := ⟨lowestSetBit (k + 1), lowestSetBit_lt hk⟩
  have hflip := Walk.flip_grayVec Q l c i rfl best
  have htotal : (ofReal Q l c).value (grayVec n (k + 1)) < (ofReal Q l c).value best ∨
      (ofReal Q l c).value best ≤ (ofReal Q l c).value (grayVec n (k + 1)) := by
    rw [hgray, value_grayVec, value_grayVec, Exact.real_lt_real, Exact.real_le_real]
    exact lt_or_ge _ _
  have hstep := best_step (q := ofReal Q l c) (k := k) (by rw [numVariables_ofReal]) htotal
    ⟨j, hj, by rw [numVariables_ofReal]; exact hgray, by rw [numVariables_ofReal]; exact hfirst⟩
  obtain ⟨j', hj', hgray', hfirst'⟩ := hstep
  rw [show lowestSetBit (k + 1) = (i : ℕ) from rfl, hflip]
  exact ⟨by rw [numVariables_ofReal], rfl, rfl, j', hj', hgray', rfl, hfirst'⟩

/-- The walk after `k` flips, by induction on `k`. -/
theorem walk_at {k : ℕ} (hk : k < 2 ^ n) : Walk.At (ofReal Q l c) k (walk (ofReal Q l c) k) := by
  induction k with
  | zero => exact Walk.At.start Q l c
  | succ k ih =>
    have hstep := (ih (by omega)).flip Q l c hk
    rwa [walk, Nat.fold_succ]

/-! ## The search -/

theorem run_of_fits (s : Search) {q : Qubo Exact} (hsquare : q.isSquare = true)
    (hlimit : q.numVariables ≤ s.limit) :
    s.run q = .ok ⟨(walk q (2 ^ q.numVariables - 1)).bestX,
      q.value (walk q (2 ^ q.numVariables - 1)).bestX⟩ := by
  simp [Search.run, hsquare, Nat.not_lt.2 hlimit, Nat.shiftLeft_eq]

theorem Search.run_eq_error_iff {α : Type} [Scalar α] (s : Search) {q : Qubo α} (hsquare : q.isSquare = true)
    {refusal : Refusal} : s.run q = .error refusal ↔
      s.limit < q.numVariables ∧ refusal = .tooManyVariables q.numVariables s.limit := by
  unfold run
  rw [hsquare]
  by_cases hlimit : s.limit < q.numVariables
  · simp [hlimit, eq_comm]
  · simp [hlimit]

/-- **The exhaustive search returns the first minimiser** in the order of the reflected Gray code,
with its value, for every admissible limit and every finite problem that fits it. -/
theorem Search.run_first_minimiser {limit : ℤ} (hlow : 1 ≤ limit) (hhigh : limit ≤ 62)
    {q : Qubo Exact} (hfin : q.isFinite = true) (hsquare : q.isSquare = true)
    (hfits : (q.numVariables : ℤ) ≤ limit) :
    ∃ s solution k, Search.ofLimit limit = .ok s ∧ s.run q = .ok solution ∧
      q.IsMinimiser solution.x ∧ solution.objective = q.value solution.x ∧
      k < 2 ^ q.numVariables ∧ solution.x = grayVec q.numVariables k ∧
      ∀ j < k, ¬ q.IsMinimiser (grayVec q.numVariables j) := by
  let s : Search := ⟨limit.toNat, by omega, by omega⟩
  have hs : Search.ofLimit limit = .ok s := dif_pos ⟨hlow, hhigh⟩
  have hlimit : q.numVariables ≤ s.limit := by
    show q.numVariables ≤ limit.toNat
    omega
  have hrun := run_of_fits s hsquare hlimit
  obtain ⟨Q, l, c, hq⟩ := eq_ofReal hsquare hfin
  have hcount : 0 < 2 ^ q.numVariables := Nat.two_pow_pos _
  have hwalk : Walk.At q (2 ^ q.numVariables - 1) (walk q (2 ^ q.numVariables - 1)) := by
    have h := walk_at Q l c (k := 2 ^ q.numVariables - 1) (by omega)
    rwa [← hq] at h
  obtain ⟨k, hk, hx, -, hleast, hfirst⟩ := hwalk.best
  have hmin : q.IsMinimiser (walk q (2 ^ q.numVariables - 1)).bestX := by
    refine ⟨hx ▸ isBinary_grayVec _ k, ?_⟩
    intro x' hx'
    obtain ⟨i, hi, rfl⟩ := exists_grayVec hx'
    exact hleast i (by omega)
  refine ⟨s, _, k, hs, hrun, hmin, rfl, by omega, hx, ?_⟩
  intro j hj hj'
  exact OrderedScalar.not_le_of_lt (hfirst j hj) (hj'.2 _ hmin.1)

theorem Search.run_first_minimiser_pair :
    let q := ofReal !![1, -3; 0, 1] ![0, 0] 5
    q.isFinite = true ∧ q.isSquare = true ∧ q.numVariables = 2 ∧
      ∃ s solution k, Search.ofLimit 24 = .ok s ∧ s.run q = .ok solution ∧
        q.IsMinimiser solution.x ∧ solution.objective = q.value solution.x ∧
        k < 2 ^ q.numVariables ∧ solution.x = grayVec q.numVariables k ∧
        ∀ j < k, ¬ q.IsMinimiser (grayVec q.numVariables j) := by
  intro q
  have hfin : q.isFinite = true := isFinite_ofReal _ _ _
  have hsquare : q.isSquare = true := isSquare_ofReal _ _ _
  have hcount : q.numVariables = 2 := numVariables_ofReal _ _ _
  refine ⟨hfin, hsquare, hcount, ?_⟩
  exact run_first_minimiser (by decide) (by decide) hfin hsquare (by omega)

end BinarySplitting.Qubo
