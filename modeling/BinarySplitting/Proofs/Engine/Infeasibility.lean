import BinarySplitting.Proofs.Decomposition.Conforming
import BinarySplitting.Proofs.Engine.Feasibility

/-!
# Problems without a feasible pair

The program of a pass is feasible exactly where some pair of a relaxed copy and a continuous vector is
(`Decomposition.Reals.hasFeasibleBlock_iff`): which rows and bounds it has does not depend on the iterate.
So an oracle that refuses the infeasible programs refuses the first one, and the run fails in the
continuous block of its first pass (`Decomposition.pass_infeasible`).

That takes a program. Where the relaxed copy is in closed form and there are no continuous variables none
is asked for, and a coupling row without an entry that is not zero is never looked at: the run has a result
even if the row fails at every pair (`Engine.exists_result_of_closed`, `Engine.solveAt_zeroRow`).
-/

namespace BinarySplitting

open Matrix

/-- Every binary problem is answered with a binary vector of its size. -/
def Oracle.AnswersBinary {α σ : Type} [Scalar α] (oracle : Oracle (Qubo α) α σ) : Prop :=
  ∀ q st, ∃ x, (oracle q st).1 = .ok x ∧ x.IsBinary q.numVariables

/-- The programs that are refused as infeasible are those without a feasible vector. -/
def Oracle.RefusesInfeasible {α σ : Type} [Scalar α] (oracle : Oracle (Program α) α σ) : Prop :=
  ∀ program st, (∃ failure, (oracle program st).1 = .error failure ∧ failure.kind = .infeasible) ↔
    ¬ ∃ w, program.IsFeasible w

/-! ## The programs of a decomposition -/

namespace Decomposition

variable {d : Decomposition Exact} {it it' : Iterate Exact}

theorem HasShape.numVariables_qubo (h : d.HasShape it) (R : d.Reals) :
    (d.qubo it).numVariables = d.problem.numBinary := by
  simp [Qubo.numVariables, qubo, R.linear_eq, h.z, h.s, h.y]

theorem HasShape.dimension_program (h : d.HasShape it) :
    (d.program it).dimension = d.numRelaxed + d.problem.numContinuous :=
  Decomposition.dimension_program h.x.1 h.s h.y

/-- Only the size of the linear form depends on the iterate, so the feasible vectors do not. -/
theorem isFeasible_program_congr {w : Vec Exact}
    (hdimension : (d.program it).dimension = (d.program it').dimension) :
    (d.program it).IsFeasible w ↔ (d.program it').IsFeasible w :=
  ⟨fun h => h.congr hdimension rfl ⟨rfl, rfl⟩ ⟨rfl, rfl⟩,
    fun h => h.congr hdimension.symm rfl ⟨rfl, rfl⟩ ⟨rfl, rfl⟩⟩

namespace Reals

/-- **The program of a pass is feasible where the continuous block is.** -/
theorem hasFeasibleBlock_iff (R : d.Reals) {spectrum : Mat Exact → Vec Exact}
    (hp : d.problem.Accepted spectrum) (h : d.HasShape it) :
    d.problem.HasFeasibleBlock ↔ ∃ w, (d.program it).IsFeasible w := by
  have hreal : ∀ {n} (f : Fin n → ℝ), (Vec.ofReal f).size = n ∧ (Vec.ofReal f).allFinite = true :=
    fun f => ⟨Vec.size_ofReal f, Vec.allFinite_ofReal f⟩
  cases hform : d.closedForm with
  | true =>
    constructor
    · rintro ⟨z, u, ⟨hz, hzfinite⟩, ⟨hu, hufinite⟩, hfeasible⟩
      obtain ⟨z, rfl⟩ := Vec.eq_ofReal hz hzfinite
      obtain ⟨u, rfl⟩ := Vec.eq_ofReal hu hufinite
      exact ⟨_, ((R.isBlockFeasible_closed hform z u).1 hfeasible).2⟩
    · rintro ⟨w, hw⟩
      obtain ⟨u, rfl⟩ := hw.exists_ofReal (R.dimension_closed hform)
      refine ⟨_, _, hreal 0, hreal u, (R.isBlockFeasible_closed hform 0 u).2 ⟨fun i => ?_, hw⟩⟩
      exact ⟨le_rfl, zero_le_one⟩
  | false =>
    -- The penalty of the iterate may be infinite or undefined, so another iterate gives the real data.
    have hvectors := initial_hasVectors hp
    have hother : d.HasVectors { d.initial with rho := .real 1 } :=
      ⟨hvectors.x, hvectors.z, hvectors.s, hvectors.y, hvectors.u⟩
    obtain ⟨I⟩ := hother.exists_point (Exact.isFinite_iff.2 ⟨1, rfl⟩)
    have hdimension := R.dimension_joint hform I
    rw [← numRelaxed_joint hform, ← h.dimension_program] at hdimension
    constructor
    · rintro ⟨z, u, ⟨hz, hzfinite⟩, ⟨hu, hufinite⟩, hfeasible⟩
      obtain ⟨z, rfl⟩ := Vec.eq_ofReal hz hzfinite
      obtain ⟨u, rfl⟩ := Vec.eq_ofReal hu hufinite
      exact ⟨_, (isFeasible_program_congr hdimension).1 ((R.isFeasible_joint hform I z u).2 hfeasible)⟩
    · rintro ⟨w, hw⟩
      rw [← isFeasible_program_congr hdimension] at hw
      obtain ⟨v, rfl⟩ := hw.exists_ofReal (R.dimension_joint hform I)
      obtain ⟨z, u, rfl⟩ : ∃ z u, v = Fin.append z u :=
        ⟨_, _, (Fin.append_castAdd_natAdd (f := v)).symm⟩
      exact ⟨_, _, hreal z, hreal u, (R.isFeasible_joint hform I z u).1 hw⟩

end Reals

/-! ## The first pass -/

variable {σ : Type} {oracles : Oracles Exact σ} {st st' : σ}

theorem HasShape.acceptBinary (h : d.HasShape it) (R : d.Reals) (hbinary : oracles.binary.AnswersBinary)
    (st : σ) :
    ∃ x, acceptBinary d.problem.numBinary (oracles.binary (d.qubo it) st).1 = .ok x ∧
      d.HasShape { it with x } := by
  obtain ⟨x, hx, hisBinary⟩ := hbinary (d.qubo it) st
  rw [h.numVariables_qubo R] at hisBinary
  refine ⟨x, ?_, ⟨hisBinary, h.z, h.u, h.s, h.y, h.s_zero⟩⟩
  rw [hx]
  exact acceptBinary_of_snap? hisBinary.1 hisBinary.snap?_eq

/-- **A pass that asks for an infeasible program fails**, in its continuous block and as infeasible. -/
theorem pass_infeasible {spectrum : Mat Exact → Vec Exact} (hp : d.problem.Accepted spectrum)
    (R : d.Reals) (h : d.HasShape it) (hneeds : d.needsProgram = true)
    (hblock : ¬ d.problem.HasFeasibleBlock) (hbinary : oracles.binary.AnswersBinary)
    (hrefuses : oracles.continuous.RefusesInfeasible) (st : σ) :
    ∃ failure st', failure.kind = .infeasible ∧
      d.pass oracles it st = (.error ⟨it.iteration, .continuous, .solver failure⟩, st') := by
  obtain ⟨x, haccept, hshape⟩ := h.acceptBinary R hbinary st
  have hinfeasible : ¬ ∃ w, (d.program { it with x }).IsFeasible w := fun hw =>
    hblock ((R.hasFeasibleBlock_iff hp hshape).2 hw)
  obtain ⟨failure, hanswer, hkind⟩ :=
    (hrefuses (d.program { it with x }) (oracles.binary (d.qubo it) st).2).2 hinfeasible
  rw [← program_relax] at hanswer
  have hupdate : d.updateContinuous oracles.continuous { it with x } (oracles.binary (d.qubo it) st).2 = _ :=
    updateContinuous_of_program oracles.continuous hneeds
  rw [hanswer] at hupdate
  exact ⟨failure, _, hkind, pass_of_fault haccept hupdate⟩

theorem pass_of_closed (R : d.Reals) (h : d.HasShape it) (hneeds : d.needsProgram = false)
    (hbinary : oracles.binary.AnswersBinary) (st : σ) :
    ∃ next st', d.pass oracles it st = (.ok next, st') := by
  obtain ⟨x, haccept, -⟩ := h.acceptBinary R hbinary st
  exact ⟨_, _, pass_of_updated haccept (updateContinuous_of_closed oracles.continuous hneeds)⟩

end Decomposition

/-! ## Runs -/

namespace Engine

variable {σ : Type} {e : Engine Exact σ} {kernels : Kernels Exact} {p : Problem Exact}
  {params : Params Exact} {start? : Option (Iterate Exact)} {start : Iterate Exact}

theorem exists_result_of_closed (hcreate : Decomposition.create kernels p params = .ok e.decomposition)
    (hneeds : e.decomposition.needsProgram = false) (hbinary : e.oracles.binary.AnswersBinary)
    (hstart : e.decomposition.startAt start? = .ok start) (st : σ) :
    ∃ r st', e.solveAt start? st = (.ok r, st') := by
  obtain ⟨R⟩ := Decomposition.exists_reals hcreate
  obtain ⟨-, -, haccepted, hvalid⟩ := Decomposition.create_ok hcreate
  refine exists_result_of_completed hvalid hstart ?_
  intro passes it st₁ hleads
  have hshape := hleads.invariant (fun _ _ _ _ hkeep => hkeep.pass)
    (Decomposition.startAt_hasShape haccepted hstart)
  exact Decomposition.pass_of_closed R hshape hneeds hbinary st₁

/-- **A problem without a feasible pair.** The oracle for binary problems answers with binary vectors, the
one for convex programs refuses exactly the infeasible ones. If a pass asks for a program, the solve fails
in its first pass, in the continuous block and as infeasible. If it asks for none, nothing ever looks at
the rows and there is a result. -/
theorem solveAt_infeasible (hcreate : Decomposition.create kernels p params = .ok e.decomposition)
    (hblock : ¬ p.HasFeasibleBlock) (hbinary : e.oracles.binary.AnswersBinary)
    (hrefuses : e.oracles.continuous.RefusesInfeasible)
    (hstart : e.decomposition.startAt start? = .ok start) (st : σ) :
    (e.decomposition.needsProgram = true → ∃ f st', e.solveAt start? st = (.error (.failed f), st') ∧
      f.iteration = 0 ∧ f.block = .continuous ∧ f.kind = .infeasible) ∧
    (e.decomposition.needsProgram = false → ∃ r st', e.solveAt start? st = (.ok r, st')) := by
  constructor
  · intro hneeds
    obtain ⟨R⟩ := Decomposition.exists_reals hcreate
    obtain ⟨rfl, -, haccepted, hvalid⟩ := Decomposition.create_ok hcreate
    have hshape := Decomposition.startAt_hasShape haccepted hstart
    obtain ⟨failure, st', hkind, hpass⟩ :=
      Decomposition.pass_infeasible haccepted R hshape hneeds hblock hbinary hrefuses st
    have hsolve := solveAt_of_makes hvalid hstart (.failed hpass)
    exact ⟨_, st', hsolve, Decomposition.startAt_iteration hstart, rfl, hkind⟩
  · intro hneeds
    exact exists_result_of_closed hcreate hneeds hbinary hstart st

/-! ## One coupling row -/

open Classical in
/-- The oracle that answers a program with some feasible vector and refuses the others. -/
noncomputable def someFeasible : Oracle (Program Exact) Exact Unit :=
  .ofFunction fun program =>
    if h : ∃ w, program.IsFeasible w then .ok h.choose
    else .error (.reported .infeasible "the program has no feasible vector")

theorem someFeasible_refusesInfeasible : someFeasible.RefusesInfeasible := by
  intro program st
  unfold someFeasible Oracle.ofFunction
  dsimp only [pure, StateT.pure]
  split
  · next h => exact iff_of_false (by rintro ⟨_, ⟨⟩, -⟩) (not_not.2 h)
  · next h => exact iff_of_true ⟨_, rfl, rfl⟩ h

/-- One binary variable with the coupling row `cx ≤ r`. -/
noncomputable def oneRow (c r : ℝ) : Problem Exact :=
  { Problem.unconstrained (Mat.ofReal (0 : Matrix (Fin 1) (Fin 1) ℝ)) (Vec.ofReal ![0]) with
    couplingBinary := Mat.ofReal (c • (1 : Matrix (Fin 1) (Fin 1) ℝ))
    couplingRhs := Vec.ofReal ![r] }

variable (c r : ℝ)

theorem oneRow_numBinary : (oneRow c r).numBinary = 1 := Vec.size_ofReal _

theorem oneRow_numCoupling : (oneRow c r).numCoupling = 1 := Vec.size_ofReal _

theorem oneRow_accepted (spectrum : Mat Exact → Vec Exact) : (oneRow c r).Accepted spectrum := by
  refine (Problem.unconstrained_accepted isSymm_zero ![0] one_pos spectrum).withCoupling rfl rfl ?_
    (Mat.allFinite_ofReal _) (Vec.allFinite_ofReal _)
  have hcount : (Problem.unconstrained (Mat.ofReal (0 : Matrix (Fin 1) (Fin 1) ℝ))
      (Vec.ofReal ![0])).numBinary = 1 := Vec.size_ofReal _
  rw [Vec.size_ofReal, hcount]
  exact Or.inr rfl

variable {c r}

/-- With a coefficient that is not negative no copy in the unit interval reaches a negative bound. -/
theorem oneRow_not_hasFeasibleBlock (hc : 0 ≤ c) (hr : r < 0) : ¬ (oneRow c r).HasFeasibleBlock := by
  rintro ⟨z, u, ⟨hz, hzfinite⟩, -, hfeasible⟩
  obtain ⟨z, rfl⟩ := Vec.eq_ofReal (hz.trans (oneRow_numBinary c r)) hzfinite
  have hunit := hfeasible.unit 0 (by rw [oneRow_numBinary]; exact one_pos)
  have hrow := hfeasible.coupling 0 (by rw [oneRow_numCoupling]; exact one_pos)
  change (Mat.ofReal (c • (1 : Matrix (Fin 1) (Fin 1) ℝ))).mulVec (Vec.ofReal z) 0 ≤ Vec.ofReal ![r] 0 at hrow
  rw [Mat.mulVec_ofReal, Vec.get_ofReal _ one_pos, Vec.get_ofReal _ one_pos, Exact.real_le_real] at hrow
  rw [Vec.get_ofReal _ one_pos, Exact.zero_literal, Exact.real_le_real] at hunit
  have hproduct : c * z 0 ≤ r := by simpa [smul_mulVec] using hrow
  have hnonneg : 0 ≤ c * z 0 := mul_nonneg hc hunit.1
  linarith

/-- An engine for one coupling row, whose oracles answer zero and some feasible vector. -/
noncomputable def rowEngine (c r : ℝ) : Engine Exact Unit where
  decomposition := .ofProblem (oneRow c r) .standard
  oracles.binary := .ofFunction fun q => .ok (Vec.zero q.numVariables)
  oracles.continuous := someFeasible
  clock _ := 0.0

theorem rowEngine_create (c r : ℝ) :
    Decomposition.create .standard (oneRow c r) .standard = .ok (rowEngine c r).decomposition :=
  Decomposition.create_eq_ok_iff.2 ⟨oneRow_accepted c r _, Params.standard_validate, rfl⟩

theorem rowEngine_answersBinary (c r : ℝ) : (rowEngine c r).oracles.binary.AnswersBinary :=
  fun _ _ => ⟨_, rfl, Decomposition.isBinary_zero _⟩

theorem rowEngine_needsProgram (c r : ℝ) :
    (rowEngine c r).decomposition.needsProgram = true ↔ c ≠ 0 := by
  have htouches : Decomposition.touchesBinaries (oneRow c r) = true ↔ c ≠ 0 := by
    have hrow : (oneRow c r).couplingBinary = Mat.ofReal (c • 1) := rfl
    unfold Decomposition.touchesBinaries
    rw [oneRow_numCoupling, hrow]
    simp [Mat.isEmpty, Mat.any_ofReal, ← Bool.not_eq_true, Exact.same_real]
  have hnone : (rowEngine c r).decomposition.problem.numContinuous = 0 := by
    rw [rowEngine, Decomposition.ofProblem_problem]
    rfl
  have hrows : (oneRow c r).numInequalities = 0 := rfl
  rw [← htouches, Decomposition.needsProgram, hnone, rowEngine, Decomposition.ofProblem_closedForm, hrows]
  simp

theorem solveAt_infeasible_oneRow :
    let e := rowEngine 1 (-1)
    Decomposition.create .standard (oneRow 1 (-1)) .standard = .ok e.decomposition ∧
      ¬ (oneRow 1 (-1)).HasFeasibleBlock ∧ e.oracles.binary.AnswersBinary ∧
      e.oracles.continuous.RefusesInfeasible ∧
      e.decomposition.startAt none = .ok e.decomposition.initial ∧
      e.decomposition.needsProgram = true ∧
      ∃ f st', e.solveAt none () = (.error (.failed f), st') ∧
        f.iteration = 0 ∧ f.block = .continuous ∧ f.kind = .infeasible := by
  intro e
  have hblock : ¬ (oneRow 1 (-1)).HasFeasibleBlock :=
    oneRow_not_hasFeasibleBlock zero_le_one (by norm_num)
  have hneeds : e.decomposition.needsProgram = true := (rowEngine_needsProgram 1 (-1)).2 one_ne_zero
  exact ⟨rowEngine_create _ _, hblock, rowEngine_answersBinary _ _, someFeasible_refusesInfeasible, rfl,
    hneeds, (solveAt_infeasible (rowEngine_create _ _) hblock (rowEngine_answersBinary _ _)
      someFeasible_refusesInfeasible rfl ()).1 hneeds⟩

/-- No binary variable has a multiple by zero that is at most minus one, and there is a result. -/
theorem solveAt_zeroRow :
    let e := rowEngine 0 (-1)
    Decomposition.create .standard (oneRow 0 (-1)) .standard = .ok e.decomposition ∧
      ¬ (oneRow 0 (-1)).HasFeasibleBlock ∧ e.oracles.binary.AnswersBinary ∧
      e.oracles.continuous.RefusesInfeasible ∧ ∃ r st', e.solveAt none () = (.ok r, st') := by
  intro e
  have hneeds : e.decomposition.needsProgram = false :=
    Bool.eq_false_of_not_eq_true fun h => (rowEngine_needsProgram 0 (-1)).1 h rfl
  exact ⟨rowEngine_create _ _, oneRow_not_hasFeasibleBlock le_rfl (by norm_num),
    rowEngine_answersBinary _ _, someFeasible_refusesInfeasible,
    exists_result_of_closed (rowEngine_create _ _) hneeds (rowEngine_answersBinary _ _) rfl ()⟩

end Engine

end BinarySplitting
