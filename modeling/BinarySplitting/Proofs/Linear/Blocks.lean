import Mathlib.Data.Matrix.Block
import BinarySplitting.Proofs.Linear.Real

/-!
# Vectors and matrices in blocks

A vector of two parts is `Fin.append`, a matrix of four blocks is `blockMatrix`, with the indices of
the second part after those of the first. Products are taken block by block.
-/

namespace BinarySplitting

open Matrix

variable {r m n l : ℕ}

theorem append_dotProduct_append (a x : Fin n → ℝ) (c u : Fin l → ℝ) :
    Fin.append a c ⬝ᵥ Fin.append x u = a ⬝ᵥ x + c ⬝ᵥ u := by
  simp [dotProduct, Fin.sum_univ_add]

theorem append_add_append (a x : Fin n → ℝ) (c u : Fin l → ℝ) :
    Fin.append a c + Fin.append x u = Fin.append (a + x) (c + u) := by
  funext i
  refine Fin.addCases (fun i => ?_) (fun j => ?_) i
  · simp
  · simp

theorem append_sub_append (a x : Fin n → ℝ) (c u : Fin l → ℝ) :
    Fin.append a c - Fin.append x u = Fin.append (a - x) (c - u) := by
  funext i
  refine Fin.addCases (fun i => ?_) (fun j => ?_) i
  · simp
  · simp

theorem slice_append_left (x : Fin n → ℝ) (u : Fin l → ℝ) :
    (Vec.ofReal (Fin.append x u)).slice 0 n = Vec.ofReal x := by
  rw [Vec.slice_ofReal _ (by omega)]
  congr 1
  funext i
  have hindex : (⟨0 + i, by omega⟩ : Fin (n + l)) = Fin.castAdd l i := Fin.ext (by simp)
  rw [hindex, Fin.append_left]

theorem slice_append_right (x : Fin n → ℝ) (u : Fin l → ℝ) :
    (Vec.ofReal (Fin.append x u)).slice n l = Vec.ofReal u := by
  rw [Vec.slice_ofReal _ le_rfl]
  congr 1
  funext j
  exact Fin.append_right x u j

theorem slice_self (u : Fin l → ℝ) : (Vec.ofReal u).slice 0 l = Vec.ofReal u := by
  rw [Vec.slice_ofReal _ (by omega)]
  simp only [Nat.zero_add]

def blockMatrix (A : Matrix (Fin r) (Fin n) ℝ) (B : Matrix (Fin r) (Fin l) ℝ)
    (C : Matrix (Fin m) (Fin n) ℝ) (D : Matrix (Fin m) (Fin l) ℝ) :
    Matrix (Fin (r + m)) (Fin (n + l)) ℝ :=
  (fromBlocks A B C D).submatrix finSumFinEquiv.symm finSumFinEquiv.symm

variable (A : Matrix (Fin r) (Fin n) ℝ) (B : Matrix (Fin r) (Fin l) ℝ)
  (C : Matrix (Fin m) (Fin n) ℝ) (D : Matrix (Fin m) (Fin l) ℝ)

theorem append_comp_finSumFinEquiv (x : Fin n → ℝ) (u : Fin l → ℝ) :
    Fin.append x u ∘ finSumFinEquiv = Sum.elim x u := by
  funext i
  rcases i with i | i
  · simp
  · simp

theorem sumElim_comp_finSumFinEquiv (x : Fin n → ℝ) (u : Fin l → ℝ) :
    Sum.elim x u ∘ finSumFinEquiv.symm = Fin.append x u := by
  rw [← append_comp_finSumFinEquiv, Function.comp_assoc, Equiv.self_comp_symm, Function.comp_id]

theorem blockMatrix_mulVec_append (x : Fin n → ℝ) (u : Fin l → ℝ) :
    blockMatrix A B C D *ᵥ Fin.append x u = Fin.append (A *ᵥ x + B *ᵥ u) (C *ᵥ x + D *ᵥ u) := by
  rw [blockMatrix, submatrix_mulVec_equiv, Equiv.symm_symm, append_comp_finSumFinEquiv, fromBlocks_mulVec,
    Sum.elim_comp_inl, Sum.elim_comp_inr, sumElim_comp_finSumFinEquiv]

theorem Mat.get_topLeft (i : Fin r) (j : Fin n) : ofReal (blockMatrix A B C D) i j = .real (A i j) :=
  (get_ofReal_fin _ (Fin.castAdd m i) (Fin.castAdd l j)).trans (by simp [blockMatrix])

theorem Mat.get_topRight (i : Fin r) (j : Fin l) : ofReal (blockMatrix A B C D) i (n + j) = .real (B i j) :=
  (get_ofReal_fin _ (Fin.castAdd m i) (Fin.natAdd n j)).trans (by simp [blockMatrix])

theorem Mat.get_bottomLeft (i : Fin m) (j : Fin n) : ofReal (blockMatrix A B C D) (r + i) j = .real (C i j) :=
  (get_ofReal_fin _ (Fin.natAdd r i) (Fin.castAdd l j)).trans (by simp [blockMatrix])

theorem Mat.get_bottomRight (i : Fin m) (j : Fin l) :
    ofReal (blockMatrix A B C D) (r + i) (n + j) = .real (D i j) :=
  (get_ofReal_fin _ (Fin.natAdd r i) (Fin.natAdd n j)).trans (by simp [blockMatrix])

theorem Mat.ofFn_eq_blocks {g : ℕ → ℕ → Exact}
    (hA : ∀ (i : Fin r) (j : Fin n), g i j = .real (A i j))
    (hB : ∀ (i : Fin r) (j : Fin l), g i (n + j) = .real (B i j))
    (hC : ∀ (i : Fin m) (j : Fin n), g (r + i) j = .real (C i j))
    (hD : ∀ (i : Fin m) (j : Fin l), g (r + i) (n + j) = .real (D i j)) :
    Mat.ofFn (r + m) (n + l) g = Mat.ofReal (blockMatrix A B C D) := by
  apply Mat.ofFn_eq_ofReal
  intro i j
  refine Fin.addCases (fun i => ?_) (fun i => ?_) i <;>
    refine Fin.addCases (fun j => ?_) (fun j => ?_) j
  · simpa [blockMatrix] using hA i j
  · simpa [blockMatrix] using hB i j
  · simpa [blockMatrix] using hC i j
  · simpa [blockMatrix] using hD i j

theorem bounds_append_iff {a b c d : Vec Exact} (ha : a.size = n) (hb : b.size = n) (x : Fin n → ℝ)
    (u : Fin l → ℝ) :
    (∀ i : Fin (n + l), (a ++ c).get i ≤ .real (Fin.append x u i) ∧
        .real (Fin.append x u i) ≤ (b ++ d).get i) ↔
      (∀ i : Fin n, a i ≤ .real (x i) ∧ .real (x i) ≤ b i) ∧
        ∀ j : Fin l, c j ≤ .real (u j) ∧ .real (u j) ≤ d j := by
  constructor
  · intro h
    constructor
    · intro i
      simpa [Vec.get_append, ha, hb] using h (Fin.castAdd l i)
    · intro j
      simpa [Vec.get_append, ha, hb] using h (Fin.natAdd n j)
  · rintro ⟨hx, hu⟩ i
    refine Fin.addCases (fun i => ?_) (fun j => ?_) i
    · simpa [Vec.get_append, ha, hb] using hx i
    · simpa [Vec.get_append, ha, hb] using hu j

theorem append_le_append_iff {a x : Fin n → ℝ} {c u : Fin l → ℝ} :
    (∀ i, Fin.append a c i ≤ Fin.append x u i) ↔ (∀ i, a i ≤ x i) ∧ ∀ j, c j ≤ u j := by
  constructor
  · intro h
    constructor
    · intro i
      simpa using h (Fin.castAdd l i)
    · intro j
      simpa using h (Fin.natAdd n j)
  · rintro ⟨hx, hu⟩ i
    refine Fin.addCases (fun i => ?_) (fun j => ?_) i
    · simpa using hx i
    · simpa using hu j

end BinarySplitting
