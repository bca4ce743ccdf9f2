import BinarySplitting.Proofs.Splitting.ActiveSet

/-!
# How far a certificate reaches

A direction that certifies with a tolerance separates the bounds from the images of small vectors. All bounds that
it leans on are finite, and their sum, each times the direction's entry, is below minus the tolerance times the
direction's size. A vector that keeps the bounds has to make up for this gap by its absolute sum, as the direction
exerts no more force than the tolerance allows. With a positive tolerance the absolute sum of every such vector is
therefore above one, and with the tolerance zero no vector keeps the bounds
(`Constraints.isInfeasibleAlong_separates`).

Neither the order of the bounds nor the sign of the tolerance has to be known beforehand: no vector keeps crossed
bounds, and a negative tolerance certifies nothing. With a positive tolerance a certificate excludes no more than
that: every absolute sum above one is that of a vector which keeps the bounds, for some matrix and bounds with a
certificate (`Constraints.exists_admits_of_isInfeasibleAlong`).
-/

namespace BinarySplitting.Splitting.Constraints

open Matrix

/-- What a direction `d` tells of the vectors whose image under `A` keeps the bounds: it leans on finite bounds, the
sum of which is `s`, and with the tolerance `t` the gap that they leave is out of reach of small vectors. -/
structure Separates {k n : ℕ} (c : Constraints Exact) (A : Matrix (Fin k) (Fin n) ℝ) (d : Fin k → ℝ) (t s : ℝ) :
    Prop where
  finite : c.LeansOnFinite (.ofReal d)
  support : c.support (.ofReal d) = .real s
  gap : t * ‖d‖ < -s
  /-- A vector that keeps the bounds makes up for the gap by its absolute sum. -/
  reach : ∀ w : Fin n → ℝ, c.Admits (A *ᵥ w) → -s ≤ t * ‖d‖ * ∑ j, |w j|
  far : 0 < t → ∀ w : Fin n → ℝ, c.Admits (A *ᵥ w) → 1 < ∑ j, |w j|
  unreachable : t = 0 → ∀ w : Fin n → ℝ, ¬ c.Admits (A *ᵥ w)

/-- **A direction that certifies separates the bounds from the images of small vectors**, and with the tolerance zero
from the images of all vectors. -/
theorem isInfeasibleAlong_separates {k n : ℕ} {c : Constraints Exact} {A : Matrix (Fin k) (Fin n) ℝ}
    (hA : c.rows = Mat.ofReal A) {d : Fin k → ℝ} {t : ℝ}
    (h : c.isInfeasibleAlong (.ofReal d) (.real t) = true) : ∃ s, c.Separates A d t s := by
  obtain ⟨-, hforce, s, hs, hapart⟩ := (isInfeasibleAlong_ofReal_iff hA).1 h
  obtain ⟨b, hb, -⟩ := support_eq_real_iff.1 hs
  have hgap : t * ‖d‖ < -s := by linarith
  have hreach : ∀ w : Fin n → ℝ, c.Admits (A *ᵥ w) → -s ≤ t * ‖d‖ * ∑ j, |w j| := fun w hw =>
    neg_support_le hs hforce hw
  refine ⟨s, hb.leansOnFinite (size_of_rows hA), hs, hgap, hreach, fun ht w hw => ?_, fun ht w hw => ?_⟩
  · exact one_lt_of_isInfeasibleAlong hA ht h hw
  · have hle := hreach w hw
    rw [ht, zero_mul] at hgap
    rw [ht, zero_mul, zero_mul] at hle
    linarith

/-! ## Rows that touch -/

def touchingRows (t : ℝ) : Matrix (Fin 2) (Fin 1) ℝ := !![1; 1 - t]

/-- The rows `r ≤ w` and `(1 - t) w ≤ (1 - t) r`. -/
noncomputable def touching (t r : ℝ) : Constraints Exact where
  rows := Mat.ofReal (touchingRows t)
  lower := ⟨#[.real r, .minusInfinity]⟩
  upper := ⟨#[.plusInfinity, .real ((1 - t) * r)]⟩

section touching

variable {t r : ℝ}

theorem touching_support (t r : ℝ) : (touching t r).support (.ofReal ![-1, 1]) = .real (-(t * r)) := by
  refine support_eq_real_iff.2 ⟨![r, (1 - t) * r], ⟨Fin.forall_fin_two.2 ?_, Fin.forall_fin_two.2 ?_⟩, ?_⟩
  · exact ⟨fun hpos => by norm_num at hpos, fun _ => rfl⟩
  · exact ⟨fun _ => rfl, fun hneg => by norm_num at hneg⟩
  · simp only [dotProduct, Fin.sum_univ_two, cons_val_zero, cons_val_one]
    ring

theorem touching_admits (t r : ℝ) : (touching t r).Admits (touchingRows t *ᵥ ![r]) := by
  have hfirst : (touchingRows t *ᵥ ![r]) 0 = r := by simp [touchingRows, mulVec, dotProduct]
  have hsecond : (touchingRows t *ᵥ ![r]) 1 = (1 - t) * r := by simp [touchingRows, mulVec, dotProduct]
  refine Fin.forall_fin_two.2 ⟨?_, ?_⟩
  · rw [hfirst]
    exact ⟨Exact.real_le_real.2 le_rfl, Exact.real_le_plusInfinity r⟩
  · rw [hsecond]
    exact ⟨Exact.minusInfinity_le_real _, Exact.real_le_real.2 le_rfl⟩

theorem touching_isInfeasibleAlong (ht : 0 < t) (hr : 1 < r) :
    (touching t r).isInfeasibleAlong (.ofReal ![-1, 1]) (.real t) = true := by
  have hsize : ‖(![-1, 1] : Fin 2 → ℝ)‖ = 1 := by
    rw [norm_fin_two]
    norm_num
  have hforce : ((touchingRows t)ᵀ *ᵥ ![-1, 1]) 0 = -1 + (1 - t) := by
    simp [touchingRows, mulVec, dotProduct, Fin.sum_univ_two]
  have hsum : -1 + (1 - t) = -t := by ring
  refine (isInfeasibleAlong_ofReal_iff rfl).2 ⟨?_, ?_, _, touching_support t r, ?_⟩
  · rw [hsize]
    norm_num
  · rw [hsize, norm_fin_one, hforce, hsum, abs_neg, abs_of_pos ht, mul_one]
  · rw [hsize, mul_one]
    exact neg_lt_neg (lt_mul_of_one_lt_right ht hr)

theorem exists_admits_of_isInfeasibleAlong (ht : 0 < t) (hr : 1 < r) :
    ∃ (c : Constraints Exact) (A : Matrix (Fin 2) (Fin 1) ℝ) (d : Fin 2 → ℝ) (w : Fin 1 → ℝ),
      c.rows = Mat.ofReal A ∧ c.isInfeasibleAlong (.ofReal d) (.real t) = true ∧
        c.Admits (A *ᵥ w) ∧ ∑ j, |w j| = r := by
  refine ⟨touching t r, touchingRows t, ![-1, 1], ![r], rfl, touching_isInfeasibleAlong ht hr, touching_admits t r, ?_⟩
  simp [abs_of_pos (one_pos.trans hr)]

end touching

theorem isInfeasibleAlong_separates_touching :
    ((touching (1 / 2) 2).rows = Mat.ofReal (touchingRows (1 / 2)) ∧
        (touching (1 / 2) 2).isInfeasibleAlong (.ofReal ![-1, 1]) (.real (1 / 2)) = true) ∧
      (touching (1 / 2) 2).Admits (touchingRows (1 / 2) *ᵥ ![2]) ∧
        ∃ s, (touching (1 / 2) 2).Separates (touchingRows (1 / 2)) ![-1, 1] (1 / 2) s := by
  have hcertificate := touching_isInfeasibleAlong (t := 1 / 2) (r := 2) (by norm_num) (by norm_num)
  exact ⟨⟨rfl, hcertificate⟩, touching_admits _ _, isInfeasibleAlong_separates rfl hcertificate⟩

end BinarySplitting.Splitting.Constraints
