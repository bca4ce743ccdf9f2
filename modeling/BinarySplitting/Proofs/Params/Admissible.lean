import Mathlib.Tactic.Common
import BinarySplitting.Params.Validation

/-!
# Admissible parameters, one requirement at a time

Validation looks for the first requirement that fails. `Params.Admissible` holds the same
requirements under their names, so a proof takes the one it needs from accepted parameters
(`Params.validate_ok_iff`) and no proof depends on their order.
-/

namespace BinarySplitting.Params

variable {α : Type} [Scalar α]

structure Admissible (params : Params α) : Prop where
  rhoMin_pos : 0.0 < params.rhoMin
  rhoMin_le_rhoMax : params.rhoMin ≤ params.rhoMax
  rhoInitial_pos : 0.0 < params.rhoInitial
  rhoInitial_within : params.rhoMin ≤ params.rhoInitial ∧ params.rhoInitial ≤ params.rhoMax
  beta : 0.0 ≤ params.beta ∧ Scalar.isFinite params.beta = true
  equalityWeight : 0.0 ≤ params.equalityWeight ∧ Scalar.isFinite params.equalityWeight = true
  maxIterations_pos : 0 < params.maxIterations
  tolerance_pos : 0.0 < params.tolerance
  one_lt_rhoGrowth : 1.0 < params.rhoGrowth
  one_lt_raiseFactor : 1.0 < params.raiseFactor
  one_lt_lowerFactor : 1.0 < params.lowerFactor
  one_lt_balanceRatio : 1.0 < params.balanceRatio
  dualTolerance_pos : 0.0 < params.dualTolerance
  meritWeight_nonneg : 0.0 ≤ params.meritWeight
  feasibilityTolerance_pos : 0.0 < params.feasibilityTolerance
  timeLimit_pos : 0.0 < params.timeLimit

theorem validate_ok_iff {params : Params α} : params.validate = .ok () ↔ params.Admissible := by
  rw [validate_eq_ok_iff]
  simp only [checks, List.forall_mem_cons, List.not_mem_nil, false_imp_iff, implies_true, and_true,
    isWeight, Bool.and_eq_true, decide_eq_true_eq]
  constructor
  · rintro ⟨h1, h2, h3, h4, h5, h6, h7, h8, h9, h10, h11, h12, h13, h14, h15, h16⟩
    exact ⟨h1, h2, h3, h4, h5, h6, h7, h8, h9, h10, h11, h12, h13, h14, h15, h16⟩
  · rintro ⟨h1, h2, h3, h4, h5, h6, h7, h8, h9, h10, h11, h12, h13, h14, h15, h16⟩
    exact ⟨h1, h2, h3, h4, h5, h6, h7, h8, h9, h10, h11, h12, h13, h14, h15, h16⟩

theorem validate_error_iff {params : Params α} {d : Defect α} :
    params.validate = .error d ↔
      ∃ before c after, params.checks = before ++ c :: after ∧ (∀ b ∈ before, b.holds = true) ∧
        c.holds = false ∧ d = ⟨c.requirement, c.value⟩ := by
  unfold validate
  constructor
  · intro h
    split at h
    · next c hfound =>
      obtain ⟨hc, before, after, heq, hbefore⟩ := List.find?_eq_some_iff_append.1 hfound
      cases h
      exact ⟨before, c, after, heq, by simpa using hbefore, by simpa using hc, rfl⟩
    · cases h
  · rintro ⟨before, c, after, heq, hbefore, hc, rfl⟩
    have hfound : params.checks.find? (fun c => !c.holds) = some c :=
      List.find?_eq_some_iff_append.2
        ⟨by simp [hc], before, after, heq, by simpa using hbefore⟩
    rw [hfound]

end BinarySplitting.Params
