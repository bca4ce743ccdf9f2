import BinarySplitting.Proofs.Linear.Real
import BinarySplitting.Proofs.Problem.Accepted

/-!
# Accepted problems over the reals

The data of an accepted problem are real matrices and vectors (`Problem.Reals`,
`Problem.Accepted.exists_reals`); only the bounds may be infinite, and a block without entries says
nothing. The objective at real vectors is then the polynomial that the data stand for, and the
constraints are inequalities between reals.
-/

namespace BinarySplitting

open Matrix

theorem Mat.Fits.exists_ofReal {m : Mat Exact} {rows cols : ℕ} (h : m.Fits rows cols)
    (hfin : m.allFinite = true) :
    ∃ M : Matrix (Fin rows) (Fin cols) ℝ, 0 < rows → 0 < cols → m = Mat.ofReal M := by
  by_cases hentries : 0 < rows ∧ 0 < cols
  · obtain ⟨M, hM⟩ := Mat.eq_ofReal (h.hasShape hentries.1 hentries.2) hfin
    exact ⟨M, fun _ _ => hM⟩
  · exact ⟨0, fun hr hc => absurd ⟨hr, hc⟩ hentries⟩

theorem Mat.isEmpty_ofReal {rows cols : ℕ} (M : Matrix (Fin rows) (Fin cols) ℝ) (hr : 0 < rows)
    (hc : 0 < cols) : (Mat.ofReal M).isEmpty = false := by
  simp [Mat.isEmpty]
  omega

namespace Problem

theorem le_of_hasNoValue {α : Type} [Scalar α] [OrderedScalar α] {lower upper : α}
    (h : hasNoValue lower upper = false) : lower ≤ upper := by
  simp only [hasNoValue, Bool.or_eq_false_iff, decide_eq_false_iff_not] at h
  obtain ⟨⟨⟨⟨hlower, hupper⟩, hcrossed⟩, -⟩, -⟩ := h
  rw [Scalar.isUndefined_eq_false_iff] at hlower hupper
  exact (OrderedScalar.lt_or_le hupper hlower).resolve_left hcrossed

variable {p : Problem Exact}

structure Reals (p : Problem Exact) where
  Q : Matrix (Fin p.numBinary) (Fin p.numBinary) ℝ
  a : Fin p.numBinary → ℝ
  P : Matrix (Fin p.numContinuous) (Fin p.numContinuous) ℝ
  c : Fin p.numContinuous → ℝ
  constant : ℝ
  G : Matrix (Fin p.numEqualities) (Fin p.numBinary) ℝ
  b : Fin p.numEqualities → ℝ
  A : Matrix (Fin p.numInequalities) (Fin p.numBinary) ℝ
  r : Fin p.numInequalities → ℝ
  C : Matrix (Fin p.numCoupling) (Fin p.numBinary) ℝ
  D : Matrix (Fin p.numCoupling) (Fin p.numContinuous) ℝ
  d : Fin p.numCoupling → ℝ
  numBinary_pos : 0 < p.numBinary
  binaryQuadratic_eq : p.binaryQuadratic = Mat.ofReal Q
  binaryLinear_eq : p.binaryLinear = Vec.ofReal a
  continuousQuadratic_eq : 0 < p.numContinuous → p.continuousQuadratic = Mat.ofReal P
  continuousLinear_eq : p.continuousLinear = Vec.ofReal c
  constant_eq : p.constant = .real constant
  equalityRows_eq : 0 < p.numEqualities → p.equalityRows = Mat.ofReal G
  equalityRhs_eq : p.equalityRhs = Vec.ofReal b
  inequalityRows_eq : 0 < p.numInequalities → p.inequalityRows = Mat.ofReal A
  inequalityRhs_eq : p.inequalityRhs = Vec.ofReal r
  couplingBinary_eq : 0 < p.numCoupling → p.couplingBinary = Mat.ofReal C
  couplingContinuous_eq : 0 < p.numCoupling → 0 < p.numContinuous → p.couplingContinuous = Mat.ofReal D
  couplingRhs_eq : p.couplingRhs = Vec.ofReal d
  lower_size : p.lower.size = p.numContinuous
  upper_size : p.upper.size = p.numContinuous

theorem Accepted.exists_reals {spectrum : Mat Exact → Vec Exact} (h : p.Accepted spectrum) :
    Nonempty p.Reals := by
  have hn := h.numBinary_pos
  obtain ⟨Q, hQ⟩ := h.binaryQuadratic.exists_ofReal h.binaryQuadratic_finite
  obtain ⟨a, ha⟩ := Vec.eq_ofReal (n := p.numBinary) rfl h.binaryLinear_finite
  obtain ⟨P, hP⟩ := h.continuousQuadratic.exists_ofReal h.continuousQuadratic_finite
  obtain ⟨c, hc⟩ := Vec.eq_ofReal (n := p.numContinuous) rfl h.continuousLinear_finite
  obtain ⟨constant, hconstant⟩ := Exact.isFinite_iff.1 h.constant_finite
  obtain ⟨G, hG⟩ := h.equalityRows.exists_ofReal h.equalityRows_finite
  obtain ⟨b, hb⟩ := Vec.eq_ofReal (n := p.numEqualities) rfl h.equalityRhs_finite
  obtain ⟨A, hA⟩ := h.inequalityRows.exists_ofReal h.inequalityRows_finite
  obtain ⟨r, hr⟩ := Vec.eq_ofReal (n := p.numInequalities) rfl h.inequalityRhs_finite
  obtain ⟨C, hC⟩ := h.couplingBinary.exists_ofReal h.couplingBinary_finite
  obtain ⟨D, hD⟩ := h.couplingContinuous.exists_ofReal h.couplingContinuous_finite
  obtain ⟨d, hd⟩ := Vec.eq_ofReal (n := p.numCoupling) rfl h.couplingRhs_finite
  exact ⟨{
    Q, a, P, c, constant, G, b, A, r, C, D, d
    numBinary_pos := hn
    binaryQuadratic_eq := hQ hn hn
    binaryLinear_eq := ha
    continuousQuadratic_eq := fun hl => hP hl hl
    continuousLinear_eq := hc
    constant_eq := hconstant
    equalityRows_eq := fun hm => hG hm hn
    equalityRhs_eq := hb
    inequalityRows_eq := fun hm => hA hm hn
    inequalityRhs_eq := hr
    couplingBinary_eq := fun hm => hC hm hn
    couplingContinuous_eq := hD
    couplingRhs_eq := hd
    lower_size := h.lower_size
    upper_size := h.upper_size }⟩

namespace Reals

variable (R : p.Reals)

/-! ## The objective -/

def binaryValue (x : Fin p.numBinary → ℝ) : ℝ := x ⬝ᵥ R.Q *ᵥ x + R.a ⬝ᵥ x

def continuousValue (u : Fin p.numContinuous → ℝ) : ℝ := u ⬝ᵥ R.P *ᵥ u + R.c ⬝ᵥ u

def equalityMiss (x : Fin p.numBinary → ℝ) : Fin p.numEqualities → ℝ := R.G *ᵥ x - R.b

theorem binaryObjective_ofReal (x : Fin p.numBinary → ℝ) :
    p.binaryObjective (Vec.ofReal x) = .real (R.binaryValue x) := by
  rw [binaryObjective, R.binaryQuadratic_eq, R.binaryLinear_eq, Mat.quadraticForm_ofReal,
    Vec.dot_ofReal, Exact.real_add, binaryValue]

theorem continuousObjective_ofReal (u : Fin p.numContinuous → ℝ) :
    p.continuousObjective (Vec.ofReal u) = .real (R.continuousValue u) := by
  unfold continuousObjective
  split
  · next hl =>
    have hempty : IsEmpty (Fin p.numContinuous) := by rw [hl]; infer_instance
    simp [continuousValue, dotProduct]
  · next hl =>
    rw [R.continuousQuadratic_eq (Nat.pos_of_ne_zero hl), R.continuousLinear_eq,
      Mat.quadraticForm_ofReal, Vec.dot_ofReal, Exact.real_add, continuousValue]

theorem equalityMiss_ofReal (hm : 0 < p.numEqualities) (x : Fin p.numBinary → ℝ) :
    p.equalityRows.mulVec (Vec.ofReal x) - p.equalityRhs = Vec.ofReal (R.equalityMiss x) := by
  rw [R.equalityRows_eq hm, R.equalityRhs_eq, Mat.mulVec_ofReal, Vec.ofReal_sub, equalityMiss]

/-! ## The rows -/

theorem inequalityRows_ofReal (z : Fin p.numBinary → ℝ) (i : Fin p.numInequalities) :
    p.inequalityRows.mulVec (Vec.ofReal z) i = .real ((R.A *ᵥ z) i) := by
  rw [R.inequalityRows_eq i.pos, Mat.mulVec_ofReal, Vec.get_ofReal_fin]

theorem couplingLhs_eq_ofReal (hm : 0 < p.numCoupling) (z : Fin p.numBinary → ℝ)
    (u : Fin p.numContinuous → ℝ) :
    p.couplingLhs (Vec.ofReal z) (Vec.ofReal u) = Vec.ofReal (R.C *ᵥ z + R.D *ᵥ u) := by
  unfold couplingLhs
  rw [R.couplingBinary_eq hm, Mat.mulVec_ofReal]
  dsimp only
  split
  · next hl =>
    have hempty : IsEmpty (Fin p.numContinuous) := by rw [hl]; infer_instance
    have hzero : R.D *ᵥ u = 0 := by
      funext j
      simp [mulVec, dotProduct]
    rw [hzero, add_zero]
  · next hl =>
    rw [R.couplingContinuous_eq hm (Nat.pos_of_ne_zero hl), Mat.mulVec_ofReal, Vec.ofReal_add]

theorem couplingLhs_ofReal (z : Fin p.numBinary → ℝ) (u : Fin p.numContinuous → ℝ)
    (i : Fin p.numCoupling) :
    p.couplingLhs (Vec.ofReal z) (Vec.ofReal u) i = .real ((R.C *ᵥ z + R.D *ᵥ u) i) := by
  rw [R.couplingLhs_eq_ofReal i.pos, Vec.get_ofReal_fin]

end Reals

end Problem

end BinarySplitting
