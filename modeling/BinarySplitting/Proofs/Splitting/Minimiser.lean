import BinarySplitting.Splitting.Program
import BinarySplitting.Proofs.Linear.Real

/-!
# Minimisers of convex programs

A feasible vector is finite and keeps the bounds of the rows and of the variables; a minimiser is a
feasible vector of least value. Over the reals both are about a vector `Fin n → ℝ`; the bounds alone
may be infinite.
-/

namespace BinarySplitting

open Matrix

namespace Program

section generic

variable {α : Type} [Scalar α]

structure IsFeasible (p : Program α) (w : Vec α) : Prop where
  size : w.size = p.dimension
  finite : w.allFinite = true
  rows : ∀ i < p.numRows, p.rowLower i ≤ p.rows.mulVec w i ∧ p.rows.mulVec w i ≤ p.rowUpper i
  bounds : ∀ j < p.dimension, p.lower j ≤ w j ∧ w j ≤ p.upper j

theorem IsFeasible.congr {p q : Program α} {w : Vec α} (h : p.IsFeasible w)
    (hdimension : p.dimension = q.dimension) (hrows : p.rows = q.rows)
    (hrowBounds : p.rowLower = q.rowLower ∧ p.rowUpper = q.rowUpper)
    (hbounds : p.lower = q.lower ∧ p.upper = q.upper) : q.IsFeasible w := by
  have hnumRows : p.numRows = q.numRows := congrArg Vec.size hrowBounds.1
  refine ⟨h.size.trans hdimension, h.finite, ?_, ?_⟩
  · rw [← hnumRows, ← hrows, ← hrowBounds.1, ← hrowBounds.2]
    exact h.rows
  · rw [← hdimension, ← hbounds.1, ← hbounds.2]
    exact h.bounds

def IsMinimiser (p : Program α) (w : Vec α) : Prop :=
  p.IsFeasible w ∧ ∀ w', p.IsFeasible w' → p.objective w ≤ p.objective w'

end generic

variable {p : Program Exact} {n m : ℕ}

theorem IsFeasible.exists_ofReal {w : Vec Exact} (h : p.IsFeasible w) (hn : p.dimension = n) :
    ∃ v : Fin n → ℝ, w = Vec.ofReal v :=
  Vec.eq_ofReal (h.size.trans hn) h.finite

theorem objective_ofReal {H : Matrix (Fin n) (Fin n) ℝ} {f : Fin n → ℝ} {k : ℝ}
    (hH : p.quadratic = Mat.ofReal H) (hf : p.linear = Vec.ofReal f) (hk : p.constant = .real k)
    (w : Fin n → ℝ) :
    p.objective (Vec.ofReal w) = .real (1 / 2 * (w ⬝ᵥ H *ᵥ w) + f ⬝ᵥ w + k) := by
  rw [objective, hH, hf, hk, Mat.quadraticForm_ofReal, Vec.dot_ofReal, Exact.half_literal,
    Exact.real_mul, Exact.real_add, Exact.real_add]

theorem isFeasible_ofReal {A : Matrix (Fin m) (Fin n) ℝ} (hA : p.rows = Mat.ofReal A)
    (hm : p.numRows = m) (hn : p.dimension = n) (w : Fin n → ℝ) :
    p.IsFeasible (Vec.ofReal w) ↔
      (∀ i : Fin m, p.rowLower i ≤ .real ((A *ᵥ w) i) ∧ .real ((A *ᵥ w) i) ≤ p.rowUpper i) ∧
        ∀ j : Fin n, p.lower j ≤ .real (w j) ∧ .real (w j) ≤ p.upper j := by
  constructor
  · intro h
    constructor
    · intro i
      have hrow := h.rows i (hm ▸ i.isLt)
      rwa [hA, Mat.mulVec_ofReal, Vec.get_ofReal_fin] at hrow
    · intro j
      have hbound := h.bounds j (hn ▸ j.isLt)
      rwa [Vec.get_ofReal_fin] at hbound
  · rintro ⟨hrows, hbounds⟩
    refine ⟨by rw [Vec.size_ofReal, hn], Vec.allFinite_ofReal w, ?_, ?_⟩
    · intro i hi
      rw [hA, Mat.mulVec_ofReal]
      have hrow := hrows ⟨i, hm ▸ hi⟩
      rwa [← Vec.get_ofReal_fin] at hrow
    · intro j hj
      have hbound := hbounds ⟨j, hn ▸ hj⟩
      rwa [← Vec.get_ofReal_fin] at hbound

end Program

end BinarySplitting
