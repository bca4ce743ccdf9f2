import BinarySplitting.Proofs.Decomposition.Subproblems
import BinarySplitting.Proofs.Problem.Violation

/-!
# Two measures of violation

A pair of a binary and a continuous vector is judged by the violation of the problem, a sum over all its
constraints. The solver of the convex program judges its point by the greatest excess over the rows and bounds
of the program, whose vector is the pair or, in closed form, its continuous part. Apart from the equalities, which
the program does not have, both come from the same amounts, one for each inequality, coupling row and continuous
variable: the violation is their sum (`Problem.Reals.exists_excesses`), and the greatest excess is at most a
number exactly if each of them is (`Decomposition.Reals.maxViolation_le_iff`). So each measure bounds the other,
and they agree on which pairs are feasible (`Decomposition.program_violation`).
-/

namespace BinarySplitting

open Matrix

/-! ## Excesses -/

namespace Exact

theorem minusInfinity_le {x : Exact} (hx : x ≠ .undefined) : .minusInfinity ≤ x := by
  cases x with
  | undefined => exact absurd rfl hx
  | minusInfinity => exact minusInfinity_le_self
  | real r => exact minusInfinity_le_real r
  | plusInfinity => exact minusInfinity_le_plusInfinity

theorem exists_positivePart {x : Exact} (hx : x < .plusInfinity) :
    ∃ a : ℝ, 0 ≤ a ∧ Scalar.larger x (.real 0) = .real a ∧ ∀ e : ℝ, 0 ≤ e → (x ≤ .real e ↔ a ≤ e) := by
  cases x with
  | undefined => exact absurd hx.1 (not_undefined_le _)
  | plusInfinity => exact absurd hx (not_plusInfinity_lt _)
  | minusInfinity =>
    exact ⟨0, le_rfl, larger_zero_of_nonpos (minusInfinity_le_real 0),
      fun e he => iff_of_true (minusInfinity_le_real e) he⟩
  | real r =>
    refine ⟨max r 0, le_max_right r 0, larger_real r 0, fun e he => ?_⟩
    rw [real_le_real, max_le_iff, and_iff_left he]

theorem sub_real_lt_plusInfinity {x : Exact} (hx : x < .plusInfinity) (v : ℝ) : x - .real v < .plusInfinity := by
  cases x with
  | undefined => exact absurd hx.1 (not_undefined_le _)
  | plusInfinity => exact absurd hx (not_plusInfinity_lt _)
  | minusInfinity => exact hx
  | real r => exact real_lt_plusInfinity _

theorem real_sub_lt_plusInfinity {x : Exact} (hx : .minusInfinity < x) (v : ℝ) :
    .real v - x < .plusInfinity := by
  cases x with
  | undefined => exact absurd hx.1 (not_le_undefined _)
  | minusInfinity => exact absurd hx (not_lt_minusInfinity _)
  | plusInfinity => exact hx
  | real r => exact real_lt_plusInfinity _

end Exact

theorem Problem.bounds_of_hasNoValue {lower upper : Exact} (h : hasNoValue lower upper = false) :
    lower < .plusInfinity ∧ .minusInfinity < upper := by
  have hle := le_of_hasNoValue h
  simp only [hasNoValue, Bool.or_eq_false_iff] at h
  obtain ⟨⟨-, hlower⟩, hupper⟩ := h
  rw [Exact.infinity_eq, ← Bool.not_eq_true, Scalar.same_iff] at hlower
  rw [Exact.neg_infinity_eq, ← Bool.not_eq_true, Scalar.same_iff] at hupper
  obtain ⟨hdefined, hdefined'⟩ := OrderedScalar.refl_of_le _ _ hle
  have hbelow : lower ≤ .plusInfinity := OrderedScalar.le_infinity lower hdefined
  have habove : .minusInfinity ≤ upper := Exact.minusInfinity_le (Exact.defined_iff.1 hdefined')
  exact ⟨⟨hbelow, fun h => hlower ⟨hbelow, h⟩⟩, ⟨habove, fun h => hupper ⟨h, habove⟩⟩⟩

/-- A real is past at most one of two bounds that do not cross, so what it is past both of them together is at
most a number exactly if this holds for each. -/
theorem exists_excess {lower upper : Exact} (h : Problem.hasNoValue lower upper = false) (v : ℝ) :
    ∃ a b : ℝ, 0 ≤ a + b ∧ Scalar.larger (lower - .real v) (.real 0) = .real a ∧
      Scalar.larger (.real v - upper) (.real 0) = .real b ∧
      ∀ e : ℝ, 0 ≤ e → (lower - .real v ≤ .real e ∧ .real v - upper ≤ .real e ↔ a + b ≤ e) := by
  have hle : lower ≤ upper := Problem.le_of_hasNoValue h
  obtain ⟨hlower, hupper⟩ := Problem.bounds_of_hasNoValue h
  obtain ⟨a, ha, hbelow, hbelow'⟩ := Exact.exists_positivePart (Exact.sub_real_lt_plusInfinity hlower v)
  obtain ⟨b, hb, habove, habove'⟩ := Exact.exists_positivePart (Exact.real_sub_lt_plusInfinity hupper v)
  refine ⟨a, b, add_nonneg ha hb, hbelow, habove, fun e he => ?_⟩
  rw [hbelow' e he, habove' e he]
  have hone : a ≤ 0 ∨ b ≤ 0 := by
    rw [← hbelow' 0 le_rfl, ← habove' 0 le_rfl, Exact.sub_real_nonpos_iff, Exact.real_sub_nonpos_iff]
    have hdefined : Exact.real v ≤ .real v := Exact.real_le_real.2 le_rfl
    rcases OrderedScalar.lt_or_le hdefined (OrderedScalar.refl_of_le _ _ hle).1 with hlt | hge
    · exact Or.inr (OrderedScalar.trans _ _ _ (OrderedScalar.le_of_lt hlt) hle)
    · exact Or.inl hge
  constructor
  · rintro ⟨hae, hbe⟩
    rcases hone with hzero | hzero
    · linarith
    · linarith
  · intro hsum
    exact ⟨by linarith, by linarith⟩

namespace Program

variable {α : Type} [Scalar α] [OrderedScalar α]

/-- How far a vector is past a bound is defined for every bound. -/
structure HasExcesses (p : Program α) (w : Vec α) : Prop where
  rows : ∀ i < p.numRows,
    p.rowLower i - p.rows.mulVec w i ≤ p.rowLower i - p.rows.mulVec w i ∧
      p.rows.mulVec w i - p.rowUpper i ≤ p.rows.mulVec w i - p.rowUpper i
  bounds : ∀ j < p.dimension, p.lower j - w j ≤ p.lower j - w j ∧ w j - p.upper j ≤ w j - p.upper j

/-- The violation is at most a number exactly if no row and no bound is passed by more. -/
theorem maxViolation_le_iff {p : Program α} (hp : p.Fits) {w : Vec α} (hw : w.size = p.dimension)
    (hexcesses : p.HasExcesses w) {c : α} (hc : 0.0 ≤ c) :
    p.maxViolation w ≤ c ↔
      (∀ i < p.numRows, p.rowLower i - p.rows.mulVec w i ≤ c ∧ p.rows.mulVec w i - p.rowUpper i ≤ c) ∧
        ∀ j < p.dimension, p.lower j - w j ≤ c ∧ w j - p.upper j ≤ c := by
  have himage : 0 < p.numRows → (p.rows.mulVec w).size = p.numRows := fun hm => by
    rw [Mat.size_mulVec, (hp.rows hm).1]
  constructor
  · intro h
    have hrows := rowExcess_le_of_maxViolation_le h
    refine ⟨fun i hi => ?_, fun j hj => ?_⟩
    · have hm : 0 < p.numRows := Nat.zero_lt_of_lt hi
      rw [rowExcess, if_neg hm.ne'] at hrows
      exact excess_le_of_worstExcess_le hm (himage hm) rfl hp.rowUpper hexcesses.rows hrows i hi
    · have hn : 0 < p.dimension := Nat.zero_lt_of_lt hj
      rw [maxViolation_eq, if_neg hn.ne'] at h
      exact excess_le_of_worstExcess_le hn hw hp.lower hp.upper hexcesses.bounds h j hj
  · rintro ⟨hrow, hbound⟩
    have hrows : p.rowExcess w ≤ c := by
      unfold rowExcess
      split
      · exact hc
      next hm =>
      have hpos := Nat.pos_of_ne_zero hm
      exact worstExcess_le hpos (himage hpos) rfl hp.rowUpper hc fun i hi =>
        ⟨fun _ => (hrow i hi).1, fun _ => (hrow i hi).2⟩
    rw [maxViolation_eq]
    split
    · exact hrows
    next hn =>
    exact worstExcess_le (Nat.pos_of_ne_zero hn) hw hp.lower hp.upper hrows fun j hj =>
      ⟨fun _ => (hbound j hj).1, fun _ => (hbound j hj).2⟩

end Program

/-! ## The amounts of a pair -/

theorem Vec.excess_eq_real {n : ℕ} {v : Vec Exact} (hv : v.size = n) {f : Fin n → ℝ}
    (h : ∀ i : Fin n, Scalar.larger (v i) (.real 0) = .real (f i)) : v.excess = .real (∑ i, f i) := by
  rw [excess, sum, size_map, hv]
  refine Scalar.sum_real fun i => ?_
  rw [get_map _ (hv.symm ▸ i.isLt), Exact.zero_literal]
  exact h i

namespace Problem.Reals

variable {p : Problem Exact} (R : p.Reals)

/-- No inequality, no coupling row and no bound is passed by more than a number. -/
structure PassesAtMost (x : Fin p.numBinary → ℝ) (u : Fin p.numContinuous → ℝ) (e : ℝ) : Prop where
  inequalities : ∀ i, (R.A *ᵥ x) i - R.r i ≤ e
  coupling : ∀ i, (R.C *ᵥ x + R.D *ᵥ u) i - R.d i ≤ e
  bounds : ∀ j : Fin p.numContinuous, p.lower j - .real (u j) ≤ .real e ∧ .real (u j) - p.upper j ≤ .real e

include R in
theorem exists_boundExcesses {spectrum : Mat Exact → Vec Exact} (hp : p.Accepted spectrum)
    (u : Fin p.numContinuous → ℝ) : ∃ f : Fin p.numContinuous → ℝ, (∀ j, 0 ≤ f j) ∧
      p.boundViolation (Vec.ofReal u) = .real (∑ j, f j) ∧
      ∀ e, 0 ≤ e → ∀ j : Fin p.numContinuous,
        (p.lower j - .real (u j) ≤ .real e ∧ .real (u j) - p.upper j ≤ .real e ↔ f j ≤ e) := by
  choose a b hnonneg hbelow habove hiff using fun j : Fin p.numContinuous =>
    exists_excess (hp.hasValue j j.isLt) (u j)
  refine ⟨fun j => a j + b j, hnonneg, ?_, fun e he j => hiff j e he⟩
  have hsizes : (p.lower - Vec.ofReal u).size = p.numContinuous ∧
      (Vec.ofReal u - p.upper).size = p.numContinuous := by simp [R.lower_size, R.upper_size]
  have hlower : (p.lower - Vec.ofReal u).excess = .real (∑ j, a j) := Vec.excess_eq_real hsizes.1 fun j => by
    rw [Vec.get_sub (hsizes.1.symm ▸ j.isLt), Vec.get_ofReal_fin]
    exact hbelow j
  have hupper : (Vec.ofReal u - p.upper).excess = .real (∑ j, b j) := Vec.excess_eq_real hsizes.2 fun j => by
    rw [Vec.get_sub (hsizes.2.symm ▸ j.isLt), Vec.get_ofReal_fin]
    exact habove j
  unfold boundViolation
  split
  · next hl =>
    have hempty : IsEmpty (Fin p.numContinuous) := by rw [hl]; infer_instance
    rw [Finset.univ_eq_empty, Finset.sum_empty, Exact.zero_literal]
  · rw [hlower, hupper, Exact.real_add, Finset.sum_add_distrib]

/-- **The violation is that of the equalities and a sum of amounts**, one for each inequality, coupling row and
continuous variable. -/
theorem exists_excesses {spectrum : Mat Exact → Vec Exact} (hp : p.Accepted spectrum)
    (x : Fin p.numBinary → ℝ) (u : Fin p.numContinuous → ℝ) :
    ∃ f : Fin p.numInequalities ⊕ Fin p.numCoupling ⊕ Fin p.numContinuous → ℝ, (∀ i, 0 ≤ f i) ∧
      p.violation (Vec.ofReal x) (Vec.ofReal u) = p.equalityViolation (Vec.ofReal x) + .real (∑ i, f i) ∧
      ∀ e, 0 ≤ e → (R.PassesAtMost x u e ↔ ∀ i, f i ≤ e) := by
  obtain ⟨bound, hbound, hviolation, hiff⟩ := R.exists_boundExcesses hp u
  have hcoupled : ∀ i, (R.C *ᵥ x + R.D *ᵥ u) i - R.d i = (R.C *ᵥ x) i - (R.d - R.D *ᵥ u) i := fun i => by
    rw [Pi.add_apply, Pi.sub_apply]
    ring
  refine ⟨Sum.elim (fun i => max ((R.A *ᵥ x) i - R.r i) 0)
    (Sum.elim (fun i => max ((R.C *ᵥ x) i - (R.d - R.D *ᵥ u) i) 0) bound), ?_, ?_, fun e he => ?_⟩
  · rintro (i | i | j)
    · exact le_max_right _ _
    · exact le_max_right _ _
    · exact hbound j
  · rw [violation, R.equalityViolation_ofReal, R.inequalityViolation_ofReal, R.couplingViolation_ofReal,
      hviolation, Fintype.sum_sum_type, Fintype.sum_sum_type]
    simp only [Sum.elim_inl, Sum.elim_inr, Exact.real_add, add_assoc]
  · simp only [Sum.forall, Sum.elim_inl, Sum.elim_inr, max_le_iff, he, and_true, ← hcoupled, ← hiff e he]
    exact ⟨fun h => ⟨h.inequalities, h.coupling, h.bounds⟩, fun h => ⟨h.1, h.2.1, h.2.2⟩⟩

theorem equalities_hold_iff (x : Fin p.numBinary → ℝ) :
    (∀ i < p.numEqualities, p.equalityRows.mulVec (Vec.ofReal x) i = p.equalityRhs i) ↔
      ∑ i, |R.equalityMiss x i| = 0 := by
  rw [Finset.sum_eq_zero_iff_of_nonneg fun i _ => abs_nonneg _, Nat.forall_lt_iff_fin]
  refine forall_congr' fun i => ?_
  rw [R.equalityRows_eq i.pos, R.equalityRhs_eq, Mat.mulVec_ofReal, Vec.get_ofReal_fin, Vec.get_ofReal_fin,
    Exact.real_inj, abs_eq_zero, equalityMiss, Pi.sub_apply, sub_eq_zero]
  exact ⟨fun h _ => h, fun h => h (Finset.mem_univ i)⟩

end Problem.Reals

/-! ## The program of a pair -/

/-- What the convex program's vector is for a pair: the pair or, in closed form, its continuous part. -/
def Decomposition.unknowns {α : Type} (d : Decomposition α) (x u : Vec α) : Vec α :=
  if d.closedForm then u else x ++ u

namespace Decomposition

variable {d : Decomposition Exact} {it : Iterate Exact}

/-- The relaxed copy's part of the vector has its entries in the unit interval if those of the copy are. -/
theorem exists_unknowns {x : Fin d.problem.numBinary → ℝ} (hx : ∀ i, 0 ≤ x i ∧ x i ≤ 1)
    (u : Fin d.problem.numContinuous → ℝ) : ∃ z : Fin d.numRelaxed → ℝ, (∀ i, 0 ≤ z i ∧ z i ≤ 1) ∧
      d.unknowns (Vec.ofReal x) (Vec.ofReal u) = Vec.ofReal (Fin.append z u) := by
  unfold unknowns
  obtain ⟨hform, hcount, -⟩ | ⟨hform, hcount, -⟩ := d.numRelaxed_cases
  · have hempty : IsEmpty (Fin d.numRelaxed) := by rw [hcount]; infer_instance
    refine ⟨isEmptyElim, isEmptyElim, ?_⟩
    rw [if_pos hform, ← Vec.ofReal_append, Vec.append_of_size_zero_left _ ((Vec.size_ofReal _).trans hcount)]
  · rw [hform, hcount]
    exact ⟨x, hx, Vec.ofReal_append x u⟩

theorem excess_append_iff {n l : ℕ} {lower upper : Vec Exact} {z : Fin n → ℝ} (hz : ∀ i, 0 ≤ z i ∧ z i ≤ 1)
    (u : Fin l → ℝ) {e : ℝ} (he : 0 ≤ e) :
    (∀ j < n + l, (Vec.ofReal (0 : Fin n → ℝ) ++ lower).get j - Vec.ofReal (Fin.append z u) j ≤ .real e ∧
        Vec.ofReal (Fin.append z u) j - (Vec.ofReal (fun _ : Fin n => 1) ++ upper).get j ≤ .real e) ↔
      ∀ j : Fin l, lower j - .real (u j) ≤ .real e ∧ .real (u j) - upper j ≤ .real e := by
  have hunit : ∀ i, 0 - z i ≤ e ∧ z i - 1 ≤ e := fun i => ⟨by linarith [(hz i).1], by linarith [(hz i).2]⟩
  rw [Nat.forall_lt_iff_fin, Fin.forall_fin_add, ← Vec.ofReal_append]
  simp only [Vec.get_append, Vec.size_ofReal, Fin.val_castAdd, Fin.val_natAdd, Fin.is_lt, if_true,
    Nat.not_lt.2 (Nat.le_add_right _ _), if_false, Nat.add_sub_cancel_left, Vec.get_ofReal_fin, Exact.real_sub,
    Exact.real_le_real, Pi.zero_apply, hunit, and_self, implies_true, true_and]

theorem rowLower_eq {i : ℕ} (hi : i < (d.program it).numRows) : (d.program it).rowLower i = .minusInfinity := by
  change i < (Vec.const _ _).size at hi
  rw [Vec.size_const] at hi
  exact (Vec.get_const _ hi).trans Exact.neg_infinity_eq

namespace Reals

variable (R : d.Reals)

/-- In closed form there are no inequalities and the coupling rows do not touch the relaxed copy. -/
theorem rows_mulVec_unknowns (it : Iterate Exact) (x : Fin d.problem.numBinary → ℝ)
    (u : Fin d.problem.numContinuous → ℝ) :
    (d.program it).rows.mulVec (d.unknowns (Vec.ofReal x) (Vec.ofReal u)) =
      Vec.ofReal (Fin.append (R.A *ᵥ x) (R.C *ᵥ x + R.D *ᵥ u)) := by
  unfold unknowns
  cases hform : d.closedForm
  · rw [R.rows_joint hform, if_neg Bool.false_ne_true, Vec.ofReal_append, Mat.mulVec_ofReal,
      blockMatrix_mulVec_append, zero_mulVec, add_zero]
  · rw [R.rows_closed hform, if_pos rfl, Mat.mulVec_ofReal, R.closed_coupling hform, zero_mulVec, zero_add,
      ← Vec.ofReal_append, Vec.append_of_size_zero_left _
        ((Vec.size_ofReal _).trans (R.closed_inequalities hform))]

theorem rowUpper_eq (it : Iterate Exact) : (d.program it).rowUpper = Vec.ofReal (Fin.append R.r R.d) := by
  cases hform : d.closedForm
  · exact R.rowUpper_joint hform
  · rw [R.rowUpper_closed hform, ← Vec.ofReal_append, Vec.append_of_size_zero_left _
      ((Vec.size_ofReal _).trans (R.closed_inequalities hform))]

theorem rowExcesses (it : Iterate Exact) (x : Fin d.problem.numBinary → ℝ)
    (u : Fin d.problem.numContinuous → ℝ) (i : Fin (d.problem.numInequalities + d.problem.numCoupling)) :
    (d.program it).rowLower i - (d.program it).rows.mulVec (d.unknowns (Vec.ofReal x) (Vec.ofReal u)) i =
        .minusInfinity ∧
      (d.program it).rows.mulVec (d.unknowns (Vec.ofReal x) (Vec.ofReal u)) i - (d.program it).rowUpper i =
        .real (Fin.append (R.A *ᵥ x) (R.C *ᵥ x + R.D *ᵥ u) i - Fin.append R.r R.d i) := by
  have hrow : (i : ℕ) < (d.program it).numRows := by
    rw [numRows_program, R.rowUpper_eq, Vec.size_ofReal]
    exact i.isLt
  rw [R.rows_mulVec_unknowns, R.rowUpper_eq, rowLower_eq hrow, Vec.get_ofReal_fin, Vec.get_ofReal_fin]
  exact ⟨rfl, Exact.real_sub _ _⟩

/-- **The program's violation is at most a number exactly if no inequality, no coupling row and no bound is
passed by more.** -/
theorem maxViolation_le_iff {spectrum : Mat Exact → Vec Exact} (hp : d.problem.Accepted spectrum)
    (hit : d.HasVectors it) {x : Fin d.problem.numBinary → ℝ} (hx : ∀ i, 0 ≤ x i ∧ x i ≤ 1)
    (u : Fin d.problem.numContinuous → ℝ) {e : ℝ} (he : 0 ≤ e) :
    (d.program it).maxViolation (d.unknowns (Vec.ofReal x) (Vec.ofReal u)) ≤ .real e ↔
      R.PassesAtMost x u e := by
  have hdimension : (d.program it).dimension = d.numRelaxed + d.problem.numContinuous :=
    dimension_program hit.x.1 hit.s.1 hit.y.1
  have hnumRows : (d.program it).numRows = d.problem.numInequalities + d.problem.numCoupling := by
    rw [numRows_program, R.rowUpper_eq, Vec.size_ofReal]
  have hrow := R.rowExcesses it x u
  obtain ⟨z, hz, hunknowns⟩ := exists_unknowns hx u
  rw [hunknowns] at hrow ⊢
  have hlower : (d.program it).lower = Vec.ofReal (0 : Fin d.numRelaxed → ℝ) ++ d.problem.lower := by
    rw [← Vec.zero_eq_ofReal]
    rfl
  have hupper : (d.program it).upper = Vec.ofReal (fun _ : Fin d.numRelaxed => 1) ++ d.problem.upper := by
    rw [← Vec.const_eq_ofReal, ← Exact.one_literal]
    rfl
  have hexcesses : (d.program it).HasExcesses (Vec.ofReal (Fin.append z u)) := by
    refine ⟨fun i hi => ?_, fun j hj => ?_⟩
    · obtain ⟨hbelow, habove⟩ := hrow ⟨i, hnumRows ▸ hi⟩
      dsimp only at hbelow habove
      rw [hbelow, habove]
      exact ⟨Exact.minusInfinity_le_self, Exact.real_le_real.2 le_rfl⟩
    · rw [hdimension] at hj
      have hordered : (d.program it).lower j ≤ (d.program it).upper j := lower_le_upper_program hp hj
      obtain ⟨hl, hu⟩ := OrderedScalar.refl_of_le _ _ hordered
      rw [Vec.get_ofReal _ hj]
      exact ⟨Exact.defined_iff.2 (Exact.sub_real_defined_iff.2 (Exact.defined_iff.1 hl)),
        Exact.defined_iff.2 (Exact.real_sub_defined_iff.2 (Exact.defined_iff.1 hu))⟩
  have hrows : (∀ i < (d.program it).numRows,
      (d.program it).rowLower i - (d.program it).rows.mulVec (Vec.ofReal (Fin.append z u)) i ≤ .real e ∧
        (d.program it).rows.mulVec (Vec.ofReal (Fin.append z u)) i - (d.program it).rowUpper i ≤ .real e) ↔
      (∀ i, (R.A *ᵥ x) i - R.r i ≤ e) ∧ ∀ i, (R.C *ᵥ x + R.D *ᵥ u) i - R.d i ≤ e := by
    rw [hnumRows, Nat.forall_lt_iff_fin]
    simp only [hrow, Exact.minusInfinity_le_real, true_and, Exact.real_le_real, Fin.forall_fin_add,
      Fin.append_left, Fin.append_right]
  have hbounds : (∀ j < (d.program it).dimension,
      (d.program it).lower j - Vec.ofReal (Fin.append z u) j ≤ .real e ∧
        Vec.ofReal (Fin.append z u) j - (d.program it).upper j ≤ .real e) ↔
      ∀ j : Fin d.problem.numContinuous,
        d.problem.lower j - .real (u j) ≤ .real e ∧ .real (u j) - d.problem.upper j ≤ .real e := by
    rw [hdimension, hlower, hupper]
    exact excess_append_iff hz u he
  rw [Program.maxViolation_le_iff (fits_program hp hit) (by rw [Vec.size_ofReal, hdimension]) hexcesses
    (Exact.zero_literal ▸ Exact.real_le_real.2 he), hrows, hbounds]
  exact ⟨fun h => ⟨h.1.1, h.1.2, h.2⟩, fun h => ⟨⟨h.inequalities, h.coupling⟩, h.bounds⟩⟩

end Reals

/-- **The two measures bound each other** and agree on which pairs are feasible. The equalities are in the
violation alone; the factor counts the constraints that are in both. -/
theorem program_violation {kernels : Kernels Exact} {p : Problem Exact} {params : Params Exact}
    (hcreate : create kernels p params = .ok d) (hit : d.HasVectors it) {x u : Vec Exact}
    (hx : x.IsBinary p.numBinary) (hu : u.size = p.numContinuous) (hfinite : u.allFinite = true) :
    Scalar.isFinite ((d.program it).maxViolation (d.unknowns x u)) = true ∧
      (d.program it).maxViolation (d.unknowns x u) ≤ p.violation x u ∧
      p.violation x u ≤ p.equalityViolation x +
        .real ↑(p.numInequalities + p.numCoupling + p.numContinuous) *
          (d.program it).maxViolation (d.unknowns x u) ∧
      (p.isFeasible x u 0.0 = true ↔
        (∀ i < p.numEqualities, p.equalityRows.mulVec x i = p.equalityRhs i) ∧
          (d.program it).maxViolation (d.unknowns x u) = 0.0) := by
  obtain ⟨R⟩ := exists_reals hcreate
  obtain ⟨rfl, rfl, haccepted, -⟩ := create_ok hcreate
  obtain ⟨x, hunit, rfl⟩ := hx.exists_ofReal
  obtain ⟨u, rfl⟩ := Vec.eq_ofReal hu hfinite
  have hbox : ∀ i, 0 ≤ x i ∧ x i ≤ 1 := fun i => by
    rcases hunit i with h | h
    · rw [h]
      exact ⟨le_rfl, zero_le_one⟩
    · rw [h]
      exact ⟨zero_le_one, le_rfl⟩
  obtain ⟨f, hf, hviolation, hpasses⟩ := R.exists_excesses haccepted x u
  have hle : ∀ e, 0 ≤ e → ((d.program it).maxViolation (d.unknowns (Vec.ofReal x) (Vec.ofReal u)) ≤ .real e ↔
      ∀ i, f i ≤ e) := fun e he => (R.maxViolation_le_iff haccepted hit hbox u he).trans (hpasses e he)
  have hnonneg : .real 0 ≤ (d.program it).maxViolation (d.unknowns (Vec.ofReal x) (Vec.ofReal u)) := by
    have h := Program.zero_le_maxViolation (p := d.program it) (Exact.defined_iff.2 nofun)
      (d.unknowns (Vec.ofReal x) (Vec.ofReal u))
    rwa [Exact.zero_literal] at h
  generalize (d.program it).maxViolation (d.unknowns (Vec.ofReal x) (Vec.ofReal u)) = v at hle hnonneg ⊢
  -- The greatest amount is at most the sum, so it is real.
  have hsum : 0 ≤ ∑ i, f i := Finset.sum_nonneg fun i _ => hf i
  have hmost := (hle _ hsum).2 fun i => Finset.single_le_sum (fun i _ => hf i) (Finset.mem_univ i)
  obtain ⟨r, rfl, hr, hrsum⟩ := Exact.exists_real_of_between hnonneg hmost
  have hcount : ∑ i, f i ≤ ↑(d.problem.numInequalities + d.problem.numCoupling + d.problem.numContinuous) * r := by
    have hall := (hle r hr).1 (Exact.real_le_real.2 le_rfl)
    refine (Finset.sum_le_card_nsmul _ _ r fun i _ => hall i).trans_eq ?_
    rw [Finset.card_univ, Fintype.card_sum, Fintype.card_sum, Fintype.card_fin, Fintype.card_fin,
      Fintype.card_fin, nsmul_eq_mul, add_assoc]
  have hmiss : 0 ≤ ∑ i, |R.equalityMiss x i| := Finset.sum_nonneg fun i _ => abs_nonneg _
  rw [Problem.isFeasible, decide_eq_true_eq, R.equalities_hold_iff, hviolation, R.equalityViolation_ofReal,
    Exact.zero_literal, Exact.real_mul, Exact.real_add, Exact.real_add, Exact.real_le_real, Exact.real_le_real,
    Exact.real_le_real, Exact.real_inj]
  refine ⟨Exact.isFinite_iff.2 ⟨r, rfl⟩, by linarith, by linarith, fun h => ⟨by linarith, by linarith⟩, ?_⟩
  rintro ⟨hequalities, rfl⟩
  rw [mul_zero] at hcount
  linarith

/-- Two problems with an upper bound alone: one with rows that touch the relaxed copy and one without. -/
theorem program_violation_pair :
    let p := Problem.pair !![1, 1] ![3 / 2] !![1, 0]
    let p' := Problem.pair (0 : Matrix (Fin 0) (Fin 2) ℝ) 0 0
    let d := ofProblem p .standard
    let d' := ofProblem p' .standard
    let it := Iterate.ofReal ![1, 0] ![1 / 2, 1 / 4] ![0, 1] ![2, -1] ![1] 2
    let x := Vec.ofReal ![1, 1]
    let u := Vec.ofReal ![3 / 2]
    create .standard p .standard = .ok d ∧ create .standard p' .standard = .ok d' ∧ d.HasVectors it ∧
      d'.HasVectors it ∧ d.closedForm = false ∧ d'.closedForm = true ∧ x.IsBinary p.numBinary ∧
      x.IsBinary p'.numBinary ∧ u.size = p.numContinuous ∧ u.allFinite = true ∧
      (d.program it).maxViolation (x ++ u) ≤ p.violation x u ∧
      (p.isFeasible x u 0.0 = true ↔ (∀ i < p.numEqualities, p.equalityRows.mulVec x i = p.equalityRhs i) ∧
        (d.program it).maxViolation (x ++ u) = 0.0) ∧
      (d'.program it).maxViolation u ≤ p'.violation x u ∧
      (p'.isFeasible x u 0.0 = true ↔
        (∀ i < p'.numEqualities, p'.equalityRows.mulVec x i = p'.equalityRhs i) ∧
        (d'.program it).maxViolation u = 0.0) := by
  intro p p' d d' it x u
  have hcreate : create .standard p .standard = .ok d := create_pair _ _ _
  have hcreate' : create .standard p' .standard = .ok d' := create_pair _ _ _
  have hvectors : d.HasVectors it := hasVectors_pair _ _ _
  have hvectors' : d'.HasVectors it := hasVectors_pair _ _ _
  have hjoint : d.closedForm = false := by
    rw [← Bool.not_eq_true, closedForm_pair]
    exact fun h => one_ne_zero h.1
  have hclosed : d'.closedForm = true := (closedForm_pair _ _ _).2 ⟨rfl, rfl⟩
  have hx : x.IsBinary 2 := Vec.isBinary_ofReal fun i => by fin_cases i <;> exact Or.inr rfl
  have hcount : p.numBinary = 2 ∧ p'.numBinary = 2 := ⟨Vec.size_ofReal _, Vec.size_ofReal _⟩
  have hcontinuous : p.numContinuous = 1 := rfl
  have hu : u.size = p.numContinuous := (Vec.size_ofReal _).trans hcontinuous.symm
  have hfinite : u.allFinite = true := Vec.allFinite_ofReal _
  have hx' : x.IsBinary p.numBinary ∧ x.IsBinary p'.numBinary := by
    rw [hcount.1, hcount.2]
    exact ⟨hx, hx⟩
  obtain ⟨-, hle, -, hiff⟩ := program_violation hcreate hvectors hx'.1 hu hfinite
  obtain ⟨-, hle', -, hiff'⟩ := program_violation hcreate' hvectors' hx'.2 hu hfinite
  rw [unknowns, hjoint, if_neg Bool.false_ne_true] at hle hiff
  rw [unknowns, hclosed, if_pos rfl] at hle' hiff'
  exact ⟨hcreate, hcreate', hvectors, hvectors', hjoint, hclosed, hx'.1, hx'.2, hu, hfinite, hle, hiff, hle', hiff'⟩

end Decomposition

end BinarySplitting
