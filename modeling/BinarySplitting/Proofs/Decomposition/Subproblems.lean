import BinarySplitting.Proofs.Decomposition.Conforming
import BinarySplitting.Proofs.Decomposition.Descent
import BinarySplitting.Proofs.Problem.Mixed
import BinarySplitting.Proofs.Qubo.Search
import BinarySplitting.Proofs.Splitting.Constraints
import BinarySplitting.Proofs.Splitting.Trace

/-!
# Subproblems are accepted

For an accepted problem, whatever blocks it leaves out, and an iterate that passes the check before a pass, the
subproblems are accepted where they go (`Decomposition.subproblems_accepted`). Three things come together: the
operands of every operation conform (`Decomposition.Conforms`), so what was built fits together; its data are
finite, because the data of the problem and of the iterate are; and no bounds cross, because the rows have no
lower bounds, zero is below one and every continuous variable has a value. So the violation of the program is
measured against bounds that are all defined, and it is zero exactly at the feasible vectors
(`Decomposition.Reals.maxViolation_program_eq_zero_iff`).
-/

namespace BinarySplitting

open Matrix
open Splitting (Constraints)

theorem Program.Fits.check {α : Type} [Scalar α] {p : Program α} (hp : p.Fits)
    (hquadratic : p.quadratic.allFinite = true) (hlinear : p.linear.allFinite = true)
    (hrows : p.rows.allFinite = true) : Splitting.check p = .ok () := by
  have hshape : p.quadratic.hasShape p.dimension p.dimension = true := by
    simp [Mat.hasShape, hp.quadratic]
  have hrowShape : 0 < p.numRows → p.rows.hasShape p.numRows p.dimension = true := fun hm => by
    simp [Mat.hasShape, hp.rows hm]
  unfold Splitting.check
  dsimp only
  rw [if_neg (by simp [hshape]), if_neg (by simp [hp.lower, hp.upper]),
    if_neg (by simpa [hp.rowUpper] using hrowShape), if_neg (by simp [hquadratic, hlinear, hrows])]

namespace Decomposition

variable {d : Decomposition Exact} {it : Iterate Exact}

namespace Reals

variable (R : d.Reals) (I : d.Point it)

include R I

theorem transpose_qubo : (d.qubo it).quadratic.transpose = (d.qubo it).quadratic := by
  rw [R.qubo_eq_ofReal I]
  unfold Qubo.ofReal
  dsimp only
  rw [Mat.transpose_ofReal]
  congr 1
  simp only [transpose_add, transpose_smul, transpose_mul, transpose_transpose, transpose_one, smul_mul]
  rw [add_comm R.Qᵀ]

theorem allFinite_program : (d.program it).quadratic.allFinite = true ∧ (d.program it).linear.allFinite = true ∧
    (d.program it).rows.allFinite = true ∧ (d.program it).rowUpper.allFinite = true := by
  cases hform : d.closedForm
  · rw [R.quadratic_joint hform I, R.linear_joint hform I, R.rows_joint hform, R.rowUpper_joint hform]
    exact ⟨Mat.allFinite_ofReal _, Vec.allFinite_ofReal _, Mat.allFinite_ofReal _, Vec.allFinite_ofReal _⟩
  · rw [R.quadratic_closed hform, R.linear_closed hform, R.rows_closed hform, R.rowUpper_closed hform]
    exact ⟨Mat.allFinite_ofReal _, Vec.allFinite_ofReal _, Mat.allFinite_ofReal _, Vec.allFinite_ofReal _⟩

end Reals

/-! ## Bounds -/

section bounds

variable {spectrum : Mat Exact → Vec Exact} (hp : d.problem.Accepted spectrum)

include hp

theorem lower_le_upper_program {j : ℕ} (hj : j < d.numRelaxed + d.problem.numContinuous) :
    (d.program it).lower j ≤ (d.program it).upper j := by
  show Vec.get (Vec.zero d.numRelaxed ++ d.problem.lower) j ≤
    Vec.get (Vec.const d.numRelaxed 1.0 ++ d.problem.upper) j
  rw [Vec.get_append, Vec.get_append, Vec.size_zero, Vec.size_const]
  split
  · next hz =>
    rw [Vec.zero, Vec.get_const _ hz, Vec.get_const _ hz, Exact.zero_literal, Exact.one_literal,
      Exact.real_le_real]
    exact zero_le_one
  · exact Problem.le_of_hasNoValue (hp.hasValue _ (by omega))

/-- No constraint of the program has its lower bound above its upper bound, and none is undefined. -/
theorem Reals.lower_le_upper (R : d.Reals) (I : d.Point it) {i : ℕ}
    (hi : i < (Constraints.ofProgram (d.program it)).size) :
    (Constraints.ofProgram (d.program it)).lower i ≤ (Constraints.ofProgram (d.program it)).upper i := by
  have hfits := fits_program hp I.hasVectors
  have hdimension : (d.program it).dimension = d.numRelaxed + d.problem.numContinuous :=
    dimension_program I.hasVectors.x.1 I.hasVectors.s.1 I.hasVectors.y.1
  have hsize : (Constraints.ofProgram (d.program it)).size = (d.program it).numRows + (d.program it).dimension :=
    rfl
  have hlower : (d.program it).rowLower.size = (d.program it).numRows := rfl
  show Vec.get ((d.program it).rowLower ++ (d.program it).lower) i ≤
    Vec.get ((d.program it).rowUpper ++ (d.program it).upper) i
  rw [Vec.get_append, Vec.get_append, hlower, hfits.rowUpper]
  split
  · next hrow =>
    have hfinite := (Vec.allFinite_iff.1 (R.allFinite_program I).2.2.2) i (by rw [hfits.rowUpper]; exact hrow)
    obtain ⟨r, hr⟩ := Exact.isFinite_iff.1 hfinite
    rw [hr]
    exact rowLower_le hrow r
  · exact lower_le_upper_program hp (by omega)

theorem Reals.check_program (R : d.Reals) (I : d.Point it) : Splitting.check (d.program it) = .ok () := by
  obtain ⟨hquadratic, hlinear, hrows, -⟩ := R.allFinite_program I
  exact (fits_program hp I.hasVectors).check hquadratic hlinear hrows

theorem Reals.maxViolation_program_eq_zero_iff (R : d.Reals) (I : d.Point it) {k : ℕ}
    (hk : (d.program it).dimension = k) (w : Fin k → ℝ) :
    (d.program it).maxViolation (Vec.ofReal w) = 0.0 ↔ (d.program it).IsFeasible (Vec.ofReal w) := by
  subst hk
  obtain ⟨S⟩ := Program.exists_reals (R.check_program hp I)
  refine S.maxViolation_eq_zero_iff (fun i hi => ?_) w
  obtain ⟨hlower, hupper⟩ := OrderedScalar.refl_of_le _ _ (R.lower_le_upper hp I (i := i) hi)
  exact ⟨Exact.defined_iff.1 hlower, Exact.defined_iff.1 hupper⟩

end bounds

/-! ## Acceptance -/

/-- The subproblems of an iterate are accepted where they go: their parts conform, the binary problem has a
symmetric form and is refused for its number of variables alone, and the convex program is never refused for
its data. -/
structure AcceptsSubproblems (d : Decomposition Exact) (it : Iterate Exact) : Prop where
  conforms : d.Conforms it
  numVariables : (d.qubo it).numVariables = d.problem.numBinary
  shape : (d.qubo it).quadratic.hasShape d.problem.numBinary d.problem.numBinary = true
  symmetric : (d.qubo it).quadratic.transpose = (d.qubo it).quadratic
  searched : ∀ (s : Qubo.Search) refusal, s.run (d.qubo it) = .error refusal ↔
    s.limit < d.problem.numBinary ∧ refusal = .tooManyVariables d.problem.numBinary s.limit
  checked : Splitting.check (d.program it) = .ok ()
  ordered : ∀ i < (Constraints.ofProgram (d.program it)).size,
    (Constraints.ofProgram (d.program it)).lower i ≤ (Constraints.ofProgram (d.program it)).upper i
  solved : ∀ (kernels : Kernels Exact) clock (solver : Splitting.Solver Exact) failure,
    (solver.solve kernels clock (d.program it)).result = .error failure → failure.isOfData = false

/-- **Subproblems are well formed.** -/
theorem subproblems_accepted {kernels : Kernels Exact} {p : Problem Exact} {params : Params Exact}
    (hcreate : create kernels p params = .ok d) (hit : d.checkPass it = .ok ())
    (hrho : Scalar.isFinite it.rho = true) : d.AcceptsSubproblems it := by
  obtain ⟨hproblem, hparams, haccepted, -⟩ := create_ok hcreate
  have hd : d = ofProblem d.problem d.params := by
    rw [hproblem, hparams]
    exact (create_eq_ok_iff.1 hcreate).2.2
  have hvectors : d.HasVectors it := (checkPass_ok.1 hit).1
  obtain ⟨R⟩ := exists_reals hcreate
  obtain ⟨I⟩ := hvectors.exists_point hrho
  have hcount := R.numVariables_qubo I
  have hsquare : (d.qubo it).isSquare = true := by
    rw [R.qubo_eq_ofReal I]
    exact Qubo.isSquare_ofReal _ _ _
  have hchecked := R.check_program haccepted I
  have hordered := fun i hi => R.lower_le_upper haccepted I (i := i) hi
  have hcrossed : (Constraints.ofProgram (d.program it)).crossed? = none :=
    Constraints.crossed?_eq_none_iff.2 fun i hi hlt => OrderedScalar.not_le_of_lt hlt (hordered i hi)
  exact {
    conforms := conforms_of_accepted haccepted hd hvectors
    numVariables := hcount
    shape := by
      rw [← hcount]
      exact hsquare
    symmetric := R.transpose_qubo I
    searched := fun s refusal => by
      rw [← hcount]
      exact s.run_eq_error_iff hsquare
    checked := hchecked
    ordered := hordered
    solved := fun kernels clock solver failure h =>
      Splitting.Solver.solve_isOfData hchecked hcrossed h }

/-- The subproblems of a problem with rows of all kinds. -/
theorem subproblems_accepted_pair :
    let p := Problem.pair !![1, 1] ![3 / 2] !![1, 0]
    let d := ofProblem p .standard
    let it := Iterate.ofReal ![1, 0] ![1 / 2, 1 / 4] ![0, 1] ![2, -1] ![1] 2
    create .standard p .standard = .ok d ∧ d.checkPass it = .ok () ∧ Scalar.isFinite it.rho = true ∧
      d.AcceptsSubproblems it := by
  intro p d it
  have hcreate : create .standard p .standard = .ok d := create_pair _ _ _
  have hcheck : d.checkPass it = .ok () := checkPass_pair _ _ _ two_pos
  have hrho : Scalar.isFinite it.rho = true := Exact.isFinite_iff.2 ⟨2, rfl⟩
  exact ⟨hcreate, hcheck, hrho, subproblems_accepted hcreate hcheck hrho⟩

end Decomposition

end BinarySplitting
