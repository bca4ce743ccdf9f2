import BinarySplitting.Proofs.Decomposition.Subproblems

/-!
# What the subproblems ask for

The binary problem and the convex program of an iterate are put together from coefficients, half of them once
and half of them for each iterate. Here they are read as what they stand for: at every vector of its size the
binary problem has the value of the binary part of the augmented Lagrangian (`Decomposition.qubo_value`), and
the convex program that of the continuous part, with no violation exactly at the feasible vectors
(`Decomposition.program_value`). The vectors are those of the model, of real entries; the statements over the
reals are in `Decomposition.Reals`.
-/

namespace BinarySplitting

open Matrix

section generic

variable {α : Type} [Scalar α]

/-- The multipliers times a residual and half the penalty times its square. -/
def Iterate.residualValue (it : Iterate α) (residual : Vec α) : α :=
  it.y.dot residual + 0.5 * it.rho * residual.dot residual

end generic

namespace Decomposition

variable {d : Decomposition Exact} {it : Iterate Exact}

theorem Point.residualValue_ofReal (I : d.Point it) (residual : Fin d.problem.numBinary → ℝ) :
    it.residualValue (Vec.ofReal residual) = .real (residualTerm I.y I.rho residual) := by
  unfold Iterate.residualValue residualTerm
  rw [I.y_eq, I.rho_eq, Vec.dot_ofReal, Vec.dot_ofReal, Exact.half_literal, Exact.real_mul, Exact.real_mul,
    Exact.real_add]

/-- **The binary problem is the binary part of the augmented Lagrangian**, at every vector of its size, binary
or not. -/
theorem qubo_value {kernels : Kernels Exact} {p : Problem Exact} {params : Params Exact}
    (hcreate : create kernels p params = .ok d) (hit : d.HasVectors it) (hrho : Scalar.isFinite it.rho = true)
    {x : Vec Exact} (hx : x.size = p.numBinary) (hfinite : x.allFinite = true) :
    Scalar.isFinite ((d.qubo it).value x) = true ∧
    (d.qubo it).value x = p.binaryObjective x + p.constant + p.equalityPenalty params.equalityWeight x +
      it.residualValue (x - it.z - it.s) := by
  obtain ⟨R⟩ := exists_reals hcreate
  obtain ⟨I⟩ := hit.exists_point hrho
  obtain ⟨rfl, rfl, -, -⟩ := create_ok hcreate
  obtain ⟨x, rfl⟩ := Vec.eq_ofReal hx hfinite
  have hvalue := R.value_qubo I x
  refine ⟨Exact.isFinite_iff.2 ⟨_, hvalue⟩, ?_⟩
  rw [hvalue, R.binaryObjective_ofReal, R.constant_eq, R.equalityPenalty_ofReal, I.z_eq, I.s_eq,
    Vec.ofReal_sub, Vec.ofReal_sub, I.residualValue_ofReal, Exact.real_add, Exact.real_add, Exact.real_add,
    Exact.real_inj]
  unfold Reals.binaryPart
  ring

/-- Between the binary vectors, with a form that is not symmetric and an equality. -/
theorem qubo_value_pair :
    let p := Problem.pair !![1, 1] ![3 / 2] !![1, 0]
    let d := ofProblem p .standard
    let it := Iterate.ofReal ![1, 0] ![1 / 2, 1 / 4] ![0, 1] ![2, -1] ![1] 2
    let x := Vec.ofReal ![3, 1 / 2]
    create .standard p .standard = .ok d ∧ d.HasVectors it ∧ Scalar.isFinite it.rho = true ∧
      x.size = p.numBinary ∧ x.allFinite = true ∧ Scalar.isFinite ((d.qubo it).value x) = true ∧
      (d.qubo it).value x = p.binaryObjective x + p.constant +
        p.equalityPenalty Params.standard.equalityWeight x + it.residualValue (x - it.z - it.s) := by
  intro p d it x
  have hcreate : create .standard p .standard = .ok d := create_pair _ _ _
  have hvectors : d.HasVectors it := hasVectors_pair _ _ _
  have hrho : Scalar.isFinite it.rho = true := Exact.isFinite_iff.2 ⟨2, rfl⟩
  have hx : x.size = p.numBinary := (Vec.size_ofReal _).trans (Vec.size_ofReal _).symm
  have hfinite : x.allFinite = true := Vec.allFinite_ofReal _
  exact ⟨hcreate, hvectors, hrho, hx, hfinite, qubo_value hcreate hvectors hrho hx hfinite⟩

namespace Reals

variable (R : d.Reals)

include R

theorem objective_eq_continuousObjective (hform : d.closedForm = true) (it : Iterate Exact) {u : Vec Exact}
    (hu : u.size = d.problem.numContinuous) (hfinite : u.allFinite = true) :
    (d.program it).objective u = d.problem.continuousObjective u := by
  obtain ⟨u, rfl⟩ := Vec.eq_ofReal hu hfinite
  rw [R.objective_closed hform, R.continuousObjective_ofReal]

theorem isFeasible_iff_isContinuousFeasible (hform : d.closedForm = true) (it : Iterate Exact) {u : Vec Exact}
    (hu : u.size = d.problem.numContinuous) (hfinite : u.allFinite = true) :
    (d.program it).IsFeasible u ↔ d.problem.IsContinuousFeasible u := by
  obtain ⟨u, rfl⟩ := Vec.eq_ofReal hu hfinite
  rw [R.isFeasible_closed hform, R.isContinuousFeasible_ofReal]

end Reals

/-- **The convex program is the continuous part of the augmented Lagrangian** over the block's constraints: with
the relaxed copy before the continuous vector, or with the continuous vector alone where the copy has a closed
form. -/
theorem program_value {kernels : Kernels Exact} {p : Problem Exact} {params : Params Exact}
    (hcreate : create kernels p params = .ok d) (hit : d.HasVectors it) (hrho : Scalar.isFinite it.rho = true) :
    (d.closedForm = false → ∀ z u, z.size = p.numBinary → z.allFinite = true → u.size = p.numContinuous →
      u.allFinite = true →
        Scalar.isFinite ((d.program it).objective (z ++ u)) = true ∧
        (d.program it).objective (z ++ u) = p.continuousObjective u + it.residualValue (it.x - it.s - z) ∧
        ((d.program it).maxViolation (z ++ u) = 0.0 ↔ p.IsBlockFeasible z u)) ∧
    (d.closedForm = true → ∀ u, u.size = p.numContinuous → u.allFinite = true →
        Scalar.isFinite ((d.program it).objective u) = true ∧
        (d.program it).objective u = p.continuousObjective u ∧
        ((d.program it).maxViolation u = 0.0 ↔ p.IsContinuousFeasible u)) := by
  obtain ⟨R⟩ := exists_reals hcreate
  obtain ⟨I⟩ := hit.exists_point hrho
  obtain ⟨rfl, rfl, haccepted, -⟩ := create_ok hcreate
  constructor
  · intro hform z u hz hzfinite hu hufinite
    obtain ⟨z, rfl⟩ := Vec.eq_ofReal hz hzfinite
    obtain ⟨u, rfl⟩ := Vec.eq_ofReal hu hufinite
    have hvalue := R.objective_joint hform I z u
    rw [Vec.ofReal_append]
    refine ⟨Exact.isFinite_iff.2 ⟨_, hvalue⟩, ?_, ?_⟩
    · rw [hvalue, R.continuousObjective_ofReal, I.x_eq, I.s_eq, Vec.ofReal_sub, Vec.ofReal_sub,
        I.residualValue_ofReal, Exact.real_add, sub_right_comm]
    · rw [R.maxViolation_program_eq_zero_iff haccepted I (R.dimension_joint hform I), R.isFeasible_joint hform I]
  · intro hform u hu hufinite
    have hvalue := R.objective_eq_continuousObjective hform it hu hufinite
    have hfeasible := R.isFeasible_iff_isContinuousFeasible hform it hu hufinite
    obtain ⟨u, rfl⟩ := Vec.eq_ofReal hu hufinite
    refine ⟨?_, hvalue, ?_⟩
    · rw [hvalue, R.continuousObjective_ofReal]
      exact Exact.isFinite_iff.2 ⟨_, rfl⟩
    · rw [R.maxViolation_program_eq_zero_iff haccepted I (R.dimension_closed hform), hfeasible]

/-- One problem with rows that touch the relaxed copy and one without. -/
theorem program_value_pair :
    let p := Problem.pair !![1, 1] ![3 / 2] !![1, 0]
    let p' := Problem.pair (0 : Matrix (Fin 0) (Fin 2) ℝ) 0 0
    let d := ofProblem p .standard
    let d' := ofProblem p' .standard
    let it := Iterate.ofReal ![1, 0] ![1 / 2, 1 / 4] ![0, 1] ![2, -1] ![1] 2
    let z := Vec.ofReal ![1 / 2, 3 / 4]
    let u := Vec.ofReal ![3 / 2]
    create .standard p .standard = .ok d ∧ create .standard p' .standard = .ok d' ∧ d.HasVectors it ∧
      d'.HasVectors it ∧ Scalar.isFinite it.rho = true ∧ d.closedForm = false ∧ d'.closedForm = true ∧
      (d.program it).objective (z ++ u) = p.continuousObjective u + it.residualValue (it.x - it.s - z) ∧
      ((d.program it).maxViolation (z ++ u) = 0.0 ↔ p.IsBlockFeasible z u) ∧
      (d'.program it).objective u = p'.continuousObjective u ∧
      ((d'.program it).maxViolation u = 0.0 ↔ p'.IsContinuousFeasible u) := by
  intro p p' d d' it z u
  have hcreate : create .standard p .standard = .ok d := create_pair _ _ _
  have hcreate' : create .standard p' .standard = .ok d' := create_pair _ _ _
  have hvectors : d.HasVectors it := hasVectors_pair _ _ _
  have hvectors' : d'.HasVectors it := hasVectors_pair _ _ _
  have hrho : Scalar.isFinite it.rho = true := Exact.isFinite_iff.2 ⟨2, rfl⟩
  have hjoint : d.closedForm = false := by
    rw [← Bool.not_eq_true, closedForm_pair]
    exact fun h => one_ne_zero h.1
  have hclosed : d'.closedForm = true := (closedForm_pair _ _ _).2 ⟨rfl, rfl⟩
  have hz : z.size = p.numBinary := (Vec.size_ofReal _).trans (Vec.size_ofReal _).symm
  obtain ⟨-, hvalue, hviolation⟩ := (program_value hcreate hvectors hrho).1 hjoint z u hz
    (Vec.allFinite_ofReal _) (Vec.size_ofReal _) (Vec.allFinite_ofReal _)
  obtain ⟨-, hvalue', hviolation'⟩ := (program_value hcreate' hvectors' hrho).2 hclosed u
    (Vec.size_ofReal _) (Vec.allFinite_ofReal _)
  exact ⟨hcreate, hcreate', hvectors, hvectors', hrho, hjoint, hclosed, hvalue, hviolation, hvalue', hviolation'⟩

end Decomposition

end BinarySplitting
