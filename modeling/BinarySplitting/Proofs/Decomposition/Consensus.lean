import BinarySplitting.Proofs.Decomposition.Values

/-!
# The relaxed copy in closed form

Where no row touches the relaxed copy, it is not a variable of the convex program: it is computed, and the
program asks for the continuous vector alone. This loses nothing. The computed copy is the only minimiser of
its part of the augmented Lagrangian over the unit box, since in each entry that part is a parabola whose
vertex is moved into the unit interval; the constraints of the block are those of its two parts; so the two
minimisers together minimise over the block (`Decomposition.consensus_optimal`).
-/

namespace BinarySplitting

open Matrix

section generic

variable {α : Type} [Scalar α]

/-- A vector of `n` entries in the unit interval. -/
def Vec.InUnitBox (v : Vec α) (n : ℕ) : Prop := v.size = n ∧ ∀ i < n, 0.0 ≤ v i ∧ v i ≤ 1.0

/-- The part of the augmented Lagrangian in which the relaxed copy occurs. -/
def Iterate.relaxedValue (it : Iterate α) (z : Vec α) : α :=
  -(it.y.dot z) + 0.5 * it.rho * (it.x - it.s - z).dot (it.x - it.s - z)

end generic

namespace Vec

variable {n : ℕ}

theorem inUnitBox_ofReal_iff {f : Fin n → ℝ} : (ofReal f).InUnitBox n ↔ ∀ i, 0 ≤ f i ∧ f i ≤ 1 := by
  unfold InUnitBox
  rw [size_ofReal, Exact.zero_literal, Exact.one_literal]
  constructor
  · rintro ⟨-, h⟩ i
    simpa using h i i.isLt
  · refine fun h => ⟨rfl, fun i hi => ?_⟩
    rw [get_ofReal f hi, Exact.real_le_real, Exact.real_le_real]
    exact h ⟨i, hi⟩

theorem InUnitBox.exists_ofReal {v : Vec Exact} (h : v.InUnitBox n) :
    ∃ f : Fin n → ℝ, (∀ i, 0 ≤ f i ∧ f i ≤ 1) ∧ v = ofReal f := by
  have hfinite : v.allFinite = true := allFinite_iff.2 fun i hi => by
    obtain ⟨hlow, hhigh⟩ := h.2 i (h.1 ▸ hi)
    obtain ⟨r, hr, -⟩ := Exact.exists_real_of_between hlow hhigh
    exact Exact.isFinite_iff.2 ⟨r, hr⟩
  obtain ⟨f, rfl⟩ := eq_ofReal h.1 hfinite
  exact ⟨f, inUnitBox_ofReal_iff.1 h, rfl⟩

end Vec

namespace Decomposition

variable {d : Decomposition Exact} {it : Iterate Exact}

theorem Point.relaxedValue_ofReal (I : d.Point it) (z : Fin d.problem.numBinary → ℝ) :
    it.relaxedValue (Vec.ofReal z) = .real (residualTerm I.y I.rho (I.x - I.s - z) - I.y ⬝ᵥ (I.x - I.s)) := by
  unfold Iterate.relaxedValue residualTerm
  rw [I.x_eq, I.s_eq, I.y_eq, I.rho_eq, Vec.ofReal_sub, Vec.ofReal_sub, Vec.dot_ofReal, Vec.dot_ofReal,
    Exact.half_literal, Exact.real_mul, Exact.real_mul, Exact.real_neg, Exact.real_add, Exact.real_inj,
    dotProduct_sub I.y (I.x - I.s)]
  ring

theorem Point.relaxedValue_le_iff (I : d.Point it) (z z' : Fin d.problem.numBinary → ℝ) :
    it.relaxedValue (Vec.ofReal z) ≤ it.relaxedValue (Vec.ofReal z') ↔
      residualTerm I.y I.rho (I.x - I.s - z) ≤ residualTerm I.y I.rho (I.x - I.s - z') := by
  rw [I.relaxedValue_ofReal, I.relaxedValue_ofReal, Exact.real_le_real, sub_le_sub_iff_right]

/-! ## The computed copy -/

section minimiser

variable (I : d.Point it) (hρ : 0 < I.rho)

include hρ

theorem Point.consensus_inUnitBox : (d.consensus it).InUnitBox d.problem.numBinary := by
  rw [Reals.consensus_ofReal I hρ, Vec.inUnitBox_ofReal_iff]
  exact fun i => unitClamp_mem _

theorem Point.relaxedValue_consensus_le {z : Vec Exact} (hz : z.InUnitBox d.problem.numBinary) :
    it.relaxedValue (d.consensus it) ≤ it.relaxedValue z := by
  obtain ⟨z, hunit, rfl⟩ := hz.exists_ofReal
  rw [Reals.consensus_ofReal I hρ, I.relaxedValue_le_iff]
  exact residualTerm_clamp_le hρ I.y (I.x - I.s) hunit

theorem Point.eq_consensus_of_le {z : Vec Exact} (hz : z.InUnitBox d.problem.numBinary)
    (hle : it.relaxedValue z ≤ it.relaxedValue (d.consensus it)) : z = d.consensus it := by
  obtain ⟨z, hunit, rfl⟩ := hz.exists_ofReal
  rw [Reals.consensus_ofReal I hρ] at hle ⊢
  rw [I.relaxedValue_le_iff] at hle
  rw [eq_of_residualTerm_le_clamp hρ I.y (I.x - I.s) rfl hunit hle]
  rfl

end minimiser

/-! ## The block -/

section block

variable (R : d.Reals) (hclosed : d.closedForm = true) {z u : Vec Exact}

include R hclosed

theorem Reals.isBlockFeasible_iff (it : Iterate Exact) (hz : z.size = d.problem.numBinary)
    (hu : u.size = d.problem.numContinuous) (hfinite : u.allFinite = true) :
    d.problem.IsBlockFeasible z u ↔ z.InUnitBox d.problem.numBinary ∧ (d.program it).IsFeasible u := by
  obtain ⟨u, rfl⟩ := Vec.eq_ofReal hu hfinite
  constructor
  · intro h
    have hbox : z.InUnitBox d.problem.numBinary := ⟨hz, h.unit⟩
    obtain ⟨z, -, rfl⟩ := hbox.exists_ofReal
    exact ⟨hbox, ((R.isBlockFeasible_closed hclosed z u).1 h).2⟩
  · rintro ⟨hbox, hfeasible⟩
    obtain ⟨z, hunit, rfl⟩ := hbox.exists_ofReal
    exact (R.isBlockFeasible_closed hclosed z u).2 ⟨hunit, hfeasible⟩

theorem Reals.continuousObjective_le {u' : Vec Exact} (hu' : (d.program it).IsMinimiser u')
    (hu : (d.program it).IsFeasible u) : d.problem.continuousObjective u' ≤ d.problem.continuousObjective u := by
  have hdimension : (d.program it).dimension = d.problem.numContinuous := R.dimension_closed hclosed
  rw [← R.objective_eq_continuousObjective hclosed it (hu'.1.size.trans hdimension) hu'.1.finite,
    ← R.objective_eq_continuousObjective hclosed it (hu.size.trans hdimension) hu.finite]
  exact hu'.2 u hu

theorem Reals.consensus_add_le (I : d.Point it) (hρ : 0 < I.rho) {u' : Vec Exact}
    (hu' : (d.program it).IsMinimiser u') (hz : z.InUnitBox d.problem.numBinary)
    (hu : (d.program it).IsFeasible u) :
    d.problem.continuousObjective u' + it.relaxedValue (d.consensus it) ≤
      d.problem.continuousObjective u + it.relaxedValue z := by
  have hcopy := I.relaxedValue_consensus_le hρ hz
  have hcontinuous := R.continuousObjective_le hclosed hu' hu
  obtain ⟨v', rfl⟩ := hu'.1.exists_ofReal (R.dimension_closed hclosed)
  obtain ⟨v, rfl⟩ := hu.exists_ofReal (R.dimension_closed hclosed)
  obtain ⟨w, -, rfl⟩ := hz.exists_ofReal
  rw [Reals.consensus_ofReal I hρ, I.relaxedValue_ofReal, I.relaxedValue_ofReal] at hcopy ⊢
  rw [R.continuousObjective_ofReal, R.continuousObjective_ofReal] at hcontinuous ⊢
  rw [Exact.real_add, Exact.real_add, Exact.real_le_real]
  exact add_le_add (Exact.real_le_real.1 hcontinuous) (Exact.real_le_real.1 hcopy)

end block

/-- **The closed form loses nothing.** The computed copy is the only minimiser of its part over the unit box, a
pair is feasible for the block exactly if its copy is in the unit box and its continuous vector does not violate
the program, and with a minimiser of the program the computed copy minimises over the block. -/
theorem consensus_optimal {kernels : Kernels Exact} {p : Problem Exact} {params : Params Exact}
    (hcreate : create kernels p params = .ok d) (hclosed : d.closedForm = true) (hit : d.HasVectors it)
    (hrho : Scalar.isFinite it.rho = true) (hpos : 0.0 < it.rho) :
    ((d.consensus it).InUnitBox p.numBinary ∧ ∀ z, z.InUnitBox p.numBinary →
      it.relaxedValue (d.consensus it) ≤ it.relaxedValue z ∧
      (it.relaxedValue z ≤ it.relaxedValue (d.consensus it) → z = d.consensus it)) ∧
    (∀ z u, z.size = p.numBinary → u.size = p.numContinuous → u.allFinite = true →
      (p.IsBlockFeasible z u ↔ z.InUnitBox p.numBinary ∧ (d.program it).maxViolation u = 0.0)) ∧
    ∀ u', (d.program it).IsMinimiser u' → p.IsBlockFeasible (d.consensus it) u' ∧
      ∀ z u, z.size = p.numBinary → u.size = p.numContinuous → u.allFinite = true → p.IsBlockFeasible z u →
        p.continuousObjective u' + it.relaxedValue (d.consensus it) ≤
          p.continuousObjective u + it.relaxedValue z := by
  obtain ⟨R⟩ := exists_reals hcreate
  obtain ⟨I⟩ := hit.exists_point hrho
  obtain ⟨rfl, rfl, haccepted, -⟩ := create_ok hcreate
  have hρ : 0 < I.rho := by
    rwa [I.rho_eq, Exact.zero_literal, Exact.real_lt_real] at hpos
  have hbox := I.consensus_inUnitBox hρ
  refine ⟨⟨hbox, fun z hz => ⟨I.relaxedValue_consensus_le hρ hz, I.eq_consensus_of_le hρ hz⟩⟩, ?_, ?_⟩
  · intro z u hz hu hfinite
    rw [R.isBlockFeasible_iff hclosed it hz hu hfinite]
    obtain ⟨u, rfl⟩ := Vec.eq_ofReal hu hfinite
    rw [R.maxViolation_program_eq_zero_iff haccepted I (R.dimension_closed hclosed)]
  · intro u' hu'
    have hsize := hu'.1.size.trans (R.dimension_closed hclosed)
    refine ⟨(R.isBlockFeasible_iff hclosed it hbox.1 hsize hu'.1.finite).2 ⟨hbox, hu'.1⟩, ?_⟩
    intro z u hz hu hfinite hfeasible
    obtain ⟨hcopy, hcontinuous⟩ := (R.isBlockFeasible_iff hclosed it hz hu hfinite).1 hfeasible
    exact R.consensus_add_le hclosed I hρ hu' hcopy hcontinuous

theorem isMinimiser_pair (it : Iterate Exact) :
    ((ofProblem (.pair (0 : Matrix (Fin 0) (Fin 2) ℝ) 0 0) .standard).program it).IsMinimiser
      (.single (1 / 2)) := by
  obtain ⟨R⟩ := exists_reals (create_pair (0 : Matrix (Fin 0) (Fin 2) ℝ) 0 0)
  have hclosed := (closedForm_pair (0 : Matrix (Fin 0) (Fin 2) ℝ) 0 0).2 ⟨rfl, rfl⟩
  have hsize : ∀ t, (Vec.single t).size =
      (ofProblem (.pair (0 : Matrix (Fin 0) (Fin 2) ℝ) 0 0) Params.standard).problem.numContinuous := by
    intro t
    rw [ofProblem_problem]
    rfl
  have hvalue : ∀ t, ((ofProblem (.pair (0 : Matrix (Fin 0) (Fin 2) ℝ) 0 0) .standard).program it).objective
      (.single t) = .real (1 * (t * t) + -1 * t) := by
    intro t
    rw [R.objective_eq_continuousObjective hclosed it (hsize t) (Vec.allFinite_single t), ofProblem_problem]
    exact Problem.continuousObjective_mixed _ t
  constructor
  · rw [R.isFeasible_iff_isContinuousFeasible hclosed it (hsize _) (Vec.allFinite_single _), ofProblem_problem]
    refine (Problem.isContinuousFeasible_mixed_iff _ _).2 ⟨fun i => ?_, one_half_pos.le⟩
    rw [Subsingleton.elim i 0]
    norm_num
  · intro w hw
    obtain ⟨v, rfl⟩ := hw.exists_ofReal (n := 1) (by rw [R.dimension_closed hclosed, ofProblem_problem]; rfl)
    rw [← Vec.single_eq_ofReal, hvalue, hvalue, Exact.real_le_real]
    nlinarith [sq_nonneg (v 0 - 1 / 2)]

theorem consensus_optimal_pair :
    let p := Problem.pair (0 : Matrix (Fin 0) (Fin 2) ℝ) 0 0
    let d := ofProblem p .standard
    let it := Iterate.ofReal ![1, 0] ![1 / 2, 1 / 4] ![0, 1] ![2, -1] ![1] 2
    create .standard p .standard = .ok d ∧ d.closedForm = true ∧ d.HasVectors it ∧
      Scalar.isFinite it.rho = true ∧ 0.0 < it.rho ∧ (d.consensus it).InUnitBox p.numBinary ∧
      (d.program it).IsMinimiser (.single (1 / 2)) ∧ p.IsBlockFeasible (d.consensus it) (.single (1 / 2)) ∧
      ∀ z u, z.size = p.numBinary → u.size = p.numContinuous → u.allFinite = true → p.IsBlockFeasible z u →
        p.continuousObjective (.single (1 / 2)) + it.relaxedValue (d.consensus it) ≤
          p.continuousObjective u + it.relaxedValue z := by
  intro p d it
  have hcreate : create .standard p .standard = .ok d := create_pair _ _ _
  have hclosed : d.closedForm = true := (closedForm_pair _ _ _).2 ⟨rfl, rfl⟩
  have hvectors : d.HasVectors it := hasVectors_pair _ _ _
  have hrho : Scalar.isFinite it.rho = true := Exact.isFinite_iff.2 ⟨2, rfl⟩
  have hpos : 0.0 < it.rho := by
    rw [Exact.zero_literal]
    exact Exact.real_lt_real.2 two_pos
  obtain ⟨⟨hbox, -⟩, -, hblock⟩ := consensus_optimal hcreate hclosed hvectors hrho hpos
  have hminimiser := isMinimiser_pair it
  exact ⟨hcreate, hclosed, hvectors, hrho, hpos, hbox, hminimiser, hblock _ hminimiser⟩

end Decomposition

end BinarySplitting
