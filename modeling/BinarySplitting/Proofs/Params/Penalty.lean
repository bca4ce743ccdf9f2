import BinarySplitting.Engine.Pass
import BinarySplitting.History
import BinarySplitting.Proofs.Params.Admissible
import BinarySplitting.Proofs.Scalar.Exact

/-!
# One step of the penalty

After a pass the next penalty follows from the one that was used and the two residuals. A policy
keeps it, multiplies it or divides it, and then it is moved between its limits
(`Record.nextRho_cases`).

In exact arithmetic and with finite limits a penalty within them leads to one within them
(`Limits.nextRho_within`) and moves as the policy says: residual balancing only in the direction for
which the residuals ask (`Limits.nextRho_balances`), a growing penalty along a power of its factor
(`Limits.nextRho_grown`). The factors may be infinite; then one step reaches the limit. Without an upper
limit a finite penalty leads to a finite one where the factors are finite
(`Admissible.exists_nextRho`).
-/

namespace BinarySplitting

variable {α : Type} [Scalar α]

/-! ## Any arithmetic -/

/-- A penalty within its limits; what a pass divides by is positive. -/
structure Params.IsPenalty (params : Params α) (rho : α) : Prop where
  above : params.rhoMin ≤ rho
  below : rho ≤ params.rhoMax
  pos : 0.0 < rho
  slack_pos : 0.0 < params.beta + rho

def Record.nextRho (params : Params α) (r : Record α) : α :=
  Decomposition.nextRho params r.rho r.primal r.dual

/-- Residual balancing leads from the penalty of a record to another one: in one direction only if
the residuals ask for it, and by no more than the factor for that direction. -/
structure Params.Balances (params : Params α) (record : Record α) (next : α) : Prop where
  raises : record.rho < next → params.balanceRatio * record.dual < record.primal
  lowers : next < record.rho → params.balanceRatio * record.primal < record.dual
  above : 1.0 / params.lowerFactor ≤ next / record.rho
  below : next / record.rho ≤ params.raiseFactor

def Scalar.power (a : α) : ℕ → α
  | 0 => 1.0
  | k + 1 => power a k * a

/-- The penalty after a number of passes in which it grew, up to its upper limit. -/
def Params.grownRho (params : Params α) (first : α) (k : ℕ) : α :=
  Scalar.smaller params.rhoMax (first * Scalar.power params.rhoGrowth k)

/-- What one step does: the policy keeps the penalty, raises it or lowers it. -/
theorem Record.nextRho_cases [OrderedScalar α] {params : Params α} {record : Record α}
    (h : params.IsPenalty record.rho) :
    (params.policy ≠ .grow ∧ record.nextRho params = record.rho) ∨
    (params.policy = .grow ∧ record.nextRho params =
      Scalar.clamp (record.rho * params.rhoGrowth) params.rhoMin params.rhoMax) ∨
    (params.policy = .residualBalancing ∧ params.balanceRatio * record.dual < record.primal ∧
      record.nextRho params =
        Scalar.clamp (record.rho * params.raiseFactor) params.rhoMin params.rhoMax) ∨
    (params.policy = .residualBalancing ∧ params.balanceRatio * record.primal < record.dual ∧
      record.nextRho params =
        Scalar.clamp (record.rho / params.lowerFactor) params.rhoMin params.rhoMax) := by
  have hkept : Scalar.clamp record.rho params.rhoMin params.rhoMax = record.rho :=
    Scalar.clamp_of_mem h.above h.below
  unfold nextRho Decomposition.nextRho
  cases params.policy with
  | fixed => exact Or.inl ⟨by simp, hkept⟩
  | grow => exact Or.inr (Or.inl ⟨rfl, rfl⟩)
  | residualBalancing =>
    dsimp only
    split
    · next hprimal => exact Or.inr (Or.inr (Or.inl ⟨rfl, hprimal, rfl⟩))
    · split
      · next hdual => exact Or.inr (Or.inr (Or.inr ⟨rfl, hdual, rfl⟩))
      · exact Or.inl ⟨by simp, hkept⟩

theorem Record.nextRho_fixed [OrderedScalar α] {params : Params α} {record : Record α}
    (hpolicy : params.policy = .fixed) (h : params.IsPenalty record.rho) :
    record.nextRho params = record.rho := by
  obtain ⟨-, hnext⟩ | ⟨hother, -⟩ | ⟨hother, -⟩ | ⟨hother, -⟩ := Record.nextRho_cases h
  · exact hnext
  · exact absurd (hpolicy.symm.trans hother) (by simp)
  · exact absurd (hpolicy.symm.trans hother) (by simp)
  · exact absurd (hpolicy.symm.trans hother) (by simp)

/-! ## Exact arithmetic -/

theorem Scalar.power_real (g : ℝ) (k : ℕ) : power (Exact.real g) k = .real (g ^ k) := by
  induction k with
  | zero =>
    rw [pow_zero]
    exact Exact.one_literal
  | succ k ih =>
    unfold power
    rw [ih, Exact.real_mul, pow_succ]

theorem Scalar.power_plusInfinity (k : ℕ) : power Exact.plusInfinity (k + 1) = .plusInfinity := by
  induction k with
  | zero =>
    unfold power power
    rw [Exact.one_literal, Exact.real_mul_plusInfinity one_pos]
  | succ k ih =>
    unfold power
    rw [ih, Exact.plusInfinity_mul_self]

/-- Cutting a growing number off at a limit commutes with growing, once it is cut off again. -/
theorem min_min_mul {g a hi : ℝ} (hg : 1 < g) (hhi : 0 < hi) :
    min (min hi a * g) hi = min hi (a * g) := by
  rcases le_total hi a with hle | hle
  · have hi_le : hi ≤ hi * g := le_mul_of_one_le_right hhi.le hg.le
    have hstill : hi * g ≤ a * g := mul_le_mul_of_nonneg_right hle (one_pos.trans hg).le
    rw [min_eq_left hle, min_eq_right hi_le, min_eq_left (hi_le.trans hstill)]
  · rw [min_eq_right hle, min_comm]

/-! A factor is above one and may be infinite. -/

theorem Exact.real_le_factor {f : Exact} {ρ : ℝ} (hf : 1.0 < f) (hρ : ρ ≤ 1) : Exact.real ρ ≤ f := by
  rw [Exact.one_literal] at hf
  exact OrderedScalar.trans _ _ _ (Exact.real_le_real.2 hρ) (OrderedScalar.le_of_lt hf)

theorem Exact.inv_factor_le_real {f : Exact} {ρ : ℝ} (hf : 1.0 < f) (hρ : 1 ≤ ρ) :
    1.0 / f ≤ Exact.real ρ := by
  rw [Exact.one_literal] at hf ⊢
  obtain ⟨g, rfl, hg⟩ | rfl := Exact.real_or_infinite_of_lt hf
  · rw [Exact.real_div _ (one_pos.trans hg).ne', Exact.real_le_real]
    exact ((div_le_one (one_pos.trans hg)).2 hg.le).trans hρ
  · rw [Exact.real_div_plusInfinity, Exact.real_le_real]
    exact zero_le_one.trans hρ

namespace Params

/-- The limits of the penalty as real numbers. -/
structure Limits (params : Params Exact) where
  lo : ℝ
  hi : ℝ
  lo_pos : 0 < lo
  lo_le_hi : lo ≤ hi
  rhoMin_eq : params.rhoMin = .real lo
  rhoMax_eq : params.rhoMax = .real hi

variable {params : Params Exact}

theorem Admissible.exists_limits (h : params.Admissible)
    (hmax : Scalar.isFinite params.rhoMax = true) : Nonempty params.Limits := by
  obtain ⟨hi, hhi⟩ := Exact.isFinite_iff.1 hmax
  have hpos := h.rhoMin_pos
  have hle := h.rhoMin_le_rhoMax
  rw [Exact.zero_literal] at hpos
  rw [hhi] at hle
  obtain ⟨lo, hlo, -, hle⟩ := Exact.exists_real_of_between (OrderedScalar.le_of_lt hpos) hle
  rw [hlo, Exact.real_lt_real] at hpos
  exact ⟨⟨lo, hi, hpos, hle, hlo, hhi⟩⟩

namespace Limits

variable (L : params.Limits) {ρ : ℝ} {f rho first : Exact}

theorem clamp_real (a : ℝ) :
    Scalar.clamp (.real a) params.rhoMin params.rhoMax = .real (max L.lo (min a L.hi)) := by
  rw [L.rhoMin_eq, L.rhoMax_eq, Exact.clamp_real L.lo_le_hi]

theorem clamp_plusInfinity :
    Scalar.clamp .plusInfinity params.rhoMin params.rhoMax = .real L.hi := by
  rw [L.rhoMin_eq, L.rhoMax_eq, Exact.clamp_plusInfinity]

theorem isPenalty (h : params.Admissible) (hlo : L.lo ≤ ρ) (hhi : ρ ≤ L.hi) :
    params.IsPenalty (.real ρ) := by
  have hpos : 0 < ρ := L.lo_pos.trans_le hlo
  obtain ⟨hnonneg, hfinite⟩ := h.beta
  obtain ⟨β, hβ⟩ := Exact.isFinite_iff.1 hfinite
  rw [hβ, Exact.zero_literal, Exact.real_le_real] at hnonneg
  refine ⟨?_, ?_, ?_, ?_⟩
  · rw [L.rhoMin_eq]
    exact Exact.real_le_real.2 hlo
  · rw [L.rhoMax_eq]
    exact Exact.real_le_real.2 hhi
  · rw [Exact.zero_literal]
    exact Exact.real_lt_real.2 hpos
  · rw [hβ, Exact.real_add, Exact.zero_literal]
    exact Exact.real_lt_real.2 (add_pos_of_nonneg_of_pos hnonneg hpos)

theorem exists_real (h : params.IsPenalty rho) : ∃ ρ, rho = .real ρ ∧ L.lo ≤ ρ ∧ ρ ≤ L.hi :=
  Exact.exists_real_of_between (L.rhoMin_eq ▸ h.above) (L.rhoMax_eq ▸ h.below)

include L in
theorem isPenalty_of_within (h : params.Admissible)
    (hrho : params.rhoMin ≤ rho ∧ rho ≤ params.rhoMax) : params.IsPenalty rho := by
  rw [L.rhoMin_eq, L.rhoMax_eq] at hrho
  obtain ⟨ρ, rfl, hlo, hhi⟩ := Exact.exists_real_of_between hrho.1 hrho.2
  exact L.isPenalty h hlo hhi

theorem exists_raised (hlo : L.lo ≤ ρ) (hhi : ρ ≤ L.hi) (hf : 1.0 < f) :
    ∃ next, Scalar.clamp (.real ρ * f) params.rhoMin params.rhoMax = .real next ∧
      ρ ≤ next ∧ next ≤ L.hi ∧ Exact.real (next / ρ) ≤ f := by
  have hpos : 0 < ρ := L.lo_pos.trans_le hlo
  rw [Exact.one_literal] at hf
  obtain ⟨g, rfl, hg⟩ | rfl := Exact.real_or_infinite_of_lt hf
  · have hrise : ρ ≤ ρ * g := le_mul_of_one_le_right hpos.le hg.le
    refine ⟨min (ρ * g) L.hi, ?_, le_min hrise hhi, min_le_right _ _, ?_⟩
    · rw [Exact.real_mul, L.clamp_real, max_eq_right (le_min (hlo.trans hrise) L.lo_le_hi)]
    · rw [Exact.real_le_real, div_le_iff₀ hpos, mul_comm g ρ]
      exact min_le_left _ _
  · refine ⟨L.hi, ?_, hhi, le_rfl, Exact.real_le_plusInfinity _⟩
    rw [Exact.real_mul_plusInfinity hpos, L.clamp_plusInfinity]

theorem exists_lowered (hlo : L.lo ≤ ρ) (hhi : ρ ≤ L.hi) (hf : 1.0 < f) :
    ∃ next, Scalar.clamp (.real ρ / f) params.rhoMin params.rhoMax = .real next ∧
      L.lo ≤ next ∧ next ≤ ρ ∧ 1.0 / f ≤ Exact.real (next / ρ) := by
  have hpos : 0 < ρ := L.lo_pos.trans_le hlo
  rw [Exact.one_literal] at hf ⊢
  obtain ⟨g, rfl, hg⟩ | rfl := Exact.real_or_infinite_of_lt hf
  · have hgpos : 0 < g := one_pos.trans hg
    have hfall : ρ / g ≤ ρ := div_le_self hpos.le hg.le
    refine ⟨max L.lo (ρ / g), ?_, le_max_left _ _, max_le hlo hfall, ?_⟩
    · rw [Exact.real_div _ hgpos.ne', L.clamp_real, min_eq_left (hfall.trans hhi)]
    · rw [Exact.real_div _ hgpos.ne', Exact.real_le_real, le_div_iff₀ hpos, one_div_mul_eq_div]
      exact le_max_right _ _
  · refine ⟨L.lo, ?_, le_rfl, hlo, ?_⟩
    · rw [Exact.real_div_plusInfinity, L.clamp_real, min_eq_left (L.lo_pos.le.trans L.lo_le_hi),
        max_eq_left L.lo_pos.le]
    · rw [Exact.real_div_plusInfinity, Exact.real_le_real]
      exact div_nonneg L.lo_pos.le hpos.le

variable {record : Record Exact}

/-- One step: the next penalty is within the limits, and balancing moves it as the residuals ask. -/
theorem exists_step (h : params.Admissible) (hrho : params.IsPenalty record.rho) :
    ∃ ρ next, record.rho = .real ρ ∧ record.nextRho params = .real next ∧ 0 < ρ ∧
      L.lo ≤ next ∧ next ≤ L.hi ∧ (params.policy = .residualBalancing →
        (ρ < next → params.balanceRatio * record.dual < record.primal) ∧
        (next < ρ → params.balanceRatio * record.primal < record.dual) ∧
        1.0 / params.lowerFactor ≤ .real (next / ρ) ∧ .real (next / ρ) ≤ params.raiseFactor) := by
  obtain ⟨ρ, hρ, hlo, hhi⟩ := L.exists_real hrho
  have hpos : 0 < ρ := L.lo_pos.trans_le hlo
  obtain ⟨-, hnext⟩ | ⟨hgrow, hnext⟩ | ⟨-, hprimal, hnext⟩ | ⟨-, hdual, hnext⟩ :=
    Record.nextRho_cases hrho
  · refine ⟨ρ, ρ, hρ, hnext.trans hρ, hpos, hlo, hhi, fun _ => ⟨?_, ?_, ?_, ?_⟩⟩
    · exact fun hlt => absurd hlt (lt_irrefl ρ)
    · exact fun hlt => absurd hlt (lt_irrefl ρ)
    · exact Exact.inv_factor_le_real h.one_lt_lowerFactor (div_self hpos.ne').ge
    · exact Exact.real_le_factor h.one_lt_raiseFactor (div_self hpos.ne').le
  · obtain ⟨next, hclamp, hrise, hle, -⟩ := L.exists_raised hlo hhi h.one_lt_rhoGrowth
    refine ⟨ρ, next, hρ, by rw [hnext, hρ, hclamp], hpos, hlo.trans hrise, hle, ?_⟩
    exact fun hbalancing => absurd (hgrow.symm.trans hbalancing) (by simp)
  · obtain ⟨next, hclamp, hrise, hle, hfactor⟩ := L.exists_raised hlo hhi h.one_lt_raiseFactor
    refine ⟨ρ, next, hρ, by rw [hnext, hρ, hclamp], hpos, hlo.trans hrise, hle, fun _ => ?_⟩
    refine ⟨fun _ => hprimal, fun hlt => absurd hrise (not_le.2 hlt), ?_, hfactor⟩
    exact Exact.inv_factor_le_real h.one_lt_lowerFactor ((one_le_div hpos).2 hrise)
  · obtain ⟨next, hclamp, hle, hfall, hfactor⟩ := L.exists_lowered hlo hhi h.one_lt_lowerFactor
    refine ⟨ρ, next, hρ, by rw [hnext, hρ, hclamp], hpos, hle, hfall.trans hhi, fun _ => ?_⟩
    refine ⟨fun hlt => absurd hfall (not_le.2 hlt), fun _ => hdual, hfactor, ?_⟩
    exact Exact.real_le_factor h.one_lt_raiseFactor ((div_le_one hpos).2 hfall)

include L in
theorem nextRho_within (h : params.Admissible) (hrho : params.IsPenalty record.rho) :
    params.IsPenalty (record.nextRho params) := by
  obtain ⟨ρ, next, -, hnext, -, hlo, hhi, -⟩ := L.exists_step h hrho
  rw [hnext]
  exact L.isPenalty h hlo hhi

include L in
theorem nextRho_balances (h : params.Admissible) (hpolicy : params.policy = .residualBalancing)
    (hrho : params.IsPenalty record.rho) : params.Balances record (record.nextRho params) := by
  obtain ⟨ρ, next, hρ, hnext, hpos, -, -, hmoves⟩ := L.exists_step h hrho
  obtain ⟨hraises, hlowers, habove, hbelow⟩ := hmoves hpolicy
  rw [hnext]
  refine ⟨?_, ?_, ?_, ?_⟩
  · rw [hρ, Exact.real_lt_real]
    exact hraises
  · rw [hρ, Exact.real_lt_real]
    exact hlowers
  · rwa [hρ, Exact.real_div _ hpos.ne']
  · rwa [hρ, Exact.real_div _ hpos.ne']

include L in
theorem grownRho_zero (hfirst : params.IsPenalty first) : params.grownRho first 0 = first := by
  obtain ⟨ρ, rfl, -, hhi⟩ := L.exists_real hfirst
  unfold grownRho Scalar.power
  rw [Exact.one_literal, Exact.real_mul, L.rhoMax_eq, Exact.smaller_real, mul_one, min_eq_right hhi]

theorem grownRho_real {g : ℝ} (hgrowth : params.rhoGrowth = .real g) (k : ℕ) :
    params.grownRho (.real ρ) k = .real (min L.hi (ρ * g ^ k)) := by
  unfold grownRho
  rw [hgrowth, Scalar.power_real, Exact.real_mul, L.rhoMax_eq, Exact.smaller_real]

theorem grownRho_infinite (hpos : 0 < ρ) (hgrowth : params.rhoGrowth = .plusInfinity) (k : ℕ) :
    params.grownRho (.real ρ) (k + 1) = .real L.hi := by
  unfold grownRho
  rw [hgrowth, Scalar.power_plusInfinity, Exact.real_mul_plusInfinity hpos,
    Exact.smaller_plusInfinity, L.rhoMax_eq]

include L in
theorem nextRho_grown (h : params.Admissible) (hpolicy : params.policy = .grow)
    (hfirst : params.IsPenalty first) {k : ℕ} (hrho : record.rho = params.grownRho first k) :
    record.nextRho params = params.grownRho first (k + 1) := by
  obtain ⟨ρ, rfl, hlo, hhi⟩ := L.exists_real hfirst
  have hpos : 0 < ρ := L.lo_pos.trans_le hlo
  have hhipos : 0 < L.hi := hpos.trans_le hhi
  have hstep : record.nextRho params =
      Scalar.clamp (params.grownRho (.real ρ) k * params.rhoGrowth) params.rhoMin params.rhoMax := by
    unfold Record.nextRho Decomposition.nextRho
    rw [hpolicy, hrho]
  have hgrowth := h.one_lt_rhoGrowth
  rw [Exact.one_literal] at hgrowth
  obtain ⟨g, hreal, hg⟩ | hinfinite := Exact.real_or_infinite_of_lt hgrowth
  · -- A growing penalty never meets its lower limit, so only the upper one cuts it off.
    have hgrown : L.lo ≤ min L.hi (ρ * g ^ k * g) := by
      refine le_min L.lo_le_hi (hlo.trans ?_)
      rw [mul_assoc, ← pow_succ]
      exact le_mul_of_one_le_right hpos.le (one_le_pow₀ hg.le)
    rw [hstep, hreal, L.grownRho_real hreal, L.grownRho_real hreal, Exact.real_mul, L.clamp_real,
      min_min_mul hg hhipos, max_eq_right hgrown, pow_succ, mul_assoc]
  · -- An infinite factor leads to the limit in the first pass, and the penalty stays there.
    have hbefore : ∃ a, 0 < a ∧ params.grownRho (.real ρ) k = .real a := by
      cases k with
      | zero => exact ⟨ρ, hpos, L.grownRho_zero hfirst⟩
      | succ k => exact ⟨L.hi, hhipos, L.grownRho_infinite hpos hinfinite k⟩
    obtain ⟨a, ha, hbefore⟩ := hbefore
    rw [hstep, hbefore, hinfinite, Exact.real_mul_plusInfinity ha, L.clamp_plusInfinity,
      L.grownRho_infinite hpos hinfinite]

end Limits

/-! ## Finite penalties -/

/-- The numbers from which penalties are made are finite; their upper limit need not be. -/
structure HasFiniteRho (params : Params Exact) : Prop where
  rhoInitial : Scalar.isFinite params.rhoInitial = true
  rhoGrowth : Scalar.isFinite params.rhoGrowth = true
  raiseFactor : Scalar.isFinite params.raiseFactor = true

theorem standard_hasFiniteRho : (Params.standard : Params Exact).HasFiniteRho :=
  ⟨Exact.isFinite_iff.2 ⟨_, rfl⟩, Exact.isFinite_iff.2 ⟨_, rfl⟩, Exact.isFinite_iff.2 ⟨_, rfl⟩⟩

theorem Admissible.exists_clamp (h : params.Admissible) (hfinite : params.HasFiniteRho) (a : ℝ) :
    ∃ r, Scalar.clamp (.real a) params.rhoMin params.rhoMax = .real r := by
  obtain ⟨first, hfirst⟩ := Exact.isFinite_iff.1 hfinite.rhoInitial
  have hpos := OrderedScalar.le_of_lt h.rhoMin_pos
  have hle := h.rhoInitial_within.1
  rw [Exact.zero_literal] at hpos
  rw [hfirst] at hle
  obtain ⟨lo, hlo, -, -⟩ := Exact.exists_real_of_between hpos hle
  have hlimits := h.rhoMin_le_rhoMax
  rw [hlo] at hlimits ⊢
  cases hmax : params.rhoMax with
  | undefined => exact (hmax ▸ hlimits).elim
  | minusInfinity => exact (hmax ▸ hlimits).elim
  | real hi =>
    rw [hmax, Exact.real_le_real] at hlimits
    exact ⟨_, Exact.clamp_real hlimits a⟩
  | plusInfinity =>
    unfold Scalar.clamp
    rw [if_neg (Exact.not_plusInfinity_lt _)]
    split
    · exact ⟨lo, rfl⟩
    · exact ⟨a, rfl⟩

theorem Admissible.exists_nextRho (h : params.Admissible) (hfinite : params.HasFiniteRho) (ρ : ℝ)
    (primal dual : Exact) : ∃ r, Decomposition.nextRho params (.real ρ) primal dual = .real r := by
  obtain ⟨g, hg⟩ := Exact.isFinite_iff.1 hfinite.rhoGrowth
  obtain ⟨raise, hraise⟩ := Exact.isFinite_iff.1 hfinite.raiseFactor
  have hlower : ∃ a, Exact.real ρ / params.lowerFactor = .real a := by
    have hone := h.one_lt_lowerFactor
    rw [Exact.one_literal] at hone
    obtain ⟨f, hf, hlt⟩ | hf := Exact.real_or_infinite_of_lt hone
    · exact ⟨ρ / f, by rw [hf, Exact.real_div _ (one_pos.trans hlt).ne']⟩
    · exact ⟨0, by rw [hf, Exact.real_div_plusInfinity]⟩
  obtain ⟨lowered, hlower⟩ := hlower
  unfold Decomposition.nextRho
  cases params.policy with
  | fixed => exact h.exists_clamp hfinite ρ
  | grow =>
    dsimp only
    rw [hg, Exact.real_mul]
    exact h.exists_clamp hfinite _
  | residualBalancing =>
    dsimp only
    rw [hraise, Exact.real_mul, hlower]
    split
    · exact h.exists_clamp hfinite _
    · split
      · exact h.exists_clamp hfinite _
      · exact h.exists_clamp hfinite _

end Params

end BinarySplitting
