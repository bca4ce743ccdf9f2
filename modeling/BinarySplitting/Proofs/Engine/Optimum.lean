import BinarySplitting.Proofs.Engine.History
import BinarySplitting.Proofs.Engine.Shape

/-!
# An optimum is a fixed point

From a relaxed copy that is a penalised optimum, without slack and multipliers, there is nothing left to
do. The binary problem is the penalised objective and half the penalty times the squared distance from the
optimum, so the optimum is its only minimiser even where the penalised objective has several
(`Reals.isMinimiser_iff_of_optimum`). The convex program adds the same distance to the continuous part of
the objective, so its answers agree with the optimum and are optimal themselves
(`Reals.updatesTo_of_optimum`). Then no residual is left for the slack and the multipliers, and the first
pass meets the stopping test, whatever the parameters are (`Engine.solveFrom_optimum`).
-/

namespace BinarySplitting

open Matrix

/-! ## Optima -/

section generic

variable {α : Type} [Scalar α]

/-- A binary vector of least binary objective with the equalities as a weighted square. -/
structure Problem.IsPenalisedOptimum (p : Problem α) (weight : α) (x : Vec α) : Prop where
  binary : x.IsBinary p.numBinary
  least : ∀ x', x'.IsBinary p.numBinary →
    p.binaryObjective x + p.equalityPenalty weight x ≤ p.binaryObjective x' + p.equalityPenalty weight x'

/-- A continuous vector that is feasible with a binary one and whose continuous objective is least among all
feasible pairs. -/
structure Problem.IsContinuousOptimum (p : Problem α) (x u : Vec α) : Prop where
  finite : u.size = p.numContinuous ∧ u.allFinite = true
  feasible : p.IsBlockFeasible x u
  least : ∀ z v, z.size = p.numBinary → z.allFinite = true → v.size = p.numContinuous →
    v.allFinite = true → p.IsBlockFeasible z v → p.continuousObjective u ≤ p.continuousObjective v

end generic

/-! ## The distance from an optimum -/

namespace Decomposition.Reals

variable {d : Decomposition Exact} {it : Iterate Exact} {σ : Type} {st : σ} (R : d.Reals) (I : d.Point it)
  {x : Fin d.problem.numBinary → ℝ} {u : Fin d.problem.numContinuous → ℝ}

theorem binaryPart_le_of_optimum
    (hopt : d.problem.IsPenalisedOptimum d.params.equalityWeight (Vec.ofReal x))
    {x' : Fin d.problem.numBinary → ℝ} (hx' : (Vec.ofReal x').IsBinary d.problem.numBinary) :
    R.binaryPart x ≤ R.binaryPart x' := by
  have hle := hopt.least _ hx'
  rw [R.binaryObjective_ofReal, R.binaryObjective_ofReal, R.equalityPenalty_ofReal,
    R.equalityPenalty_ofReal, Exact.real_add, Exact.real_add, Exact.real_le_real] at hle
  unfold binaryPart
  linarith

theorem continuousValue_le_of_optimum
    (hopt : d.problem.IsContinuousOptimum (Vec.ofReal x) (Vec.ofReal u))
    {z' : Fin d.problem.numBinary → ℝ} {u' : Fin d.problem.numContinuous → ℝ}
    (hfeasible : d.problem.IsBlockFeasible (Vec.ofReal z') (Vec.ofReal u')) :
    R.continuousValue u ≤ R.continuousValue u' := by
  have hle := hopt.least _ _ (Vec.size_ofReal _) (Vec.allFinite_ofReal _) (Vec.size_ofReal _)
    (Vec.allFinite_ofReal _) hfeasible
  rwa [R.continuousObjective_ofReal, R.continuousObjective_ofReal, Exact.real_le_real] at hle

section optimum

variable (hρ : 0 < I.rho) (hs : I.s = 0) (hy : I.y = 0)

include R hρ hs hy

/-- **The optimum at which the relaxed copy stands is the only minimiser of the binary problem.** -/
theorem isMinimiser_iff_of_optimum (hz : I.z = x)
    (hopt : d.problem.IsPenalisedOptimum d.params.equalityWeight (Vec.ofReal x)) (answer : Vec Exact) :
    (d.qubo it).IsMinimiser answer ↔ answer = Vec.ofReal x := by
  constructor
  · intro hanswer
    obtain ⟨hbinary, x', rfl, hleast⟩ := R.binary_minimises I hanswer
    have hle := hleast x hopt.binary
    have hpart := R.binaryPart_le_of_optimum hopt hbinary
    rw [hz, hs, hy, sub_zero, sub_zero, sub_self, residualTerm_zero] at hle
    have hdistance : x' - x = 0 := eq_zero_of_residualTerm_nonpos hρ (by linarith)
    rw [sub_eq_zero.1 hdistance]
  · rintro rfl
    rw [Qubo.IsMinimiser, numVariables_qubo R I]
    refine ⟨hopt.binary, ?_⟩
    intro other hother
    obtain ⟨x', -, rfl⟩ := hother.exists_ofReal
    have hpart := R.binaryPart_le_of_optimum hopt hother
    have hnonneg := residualTerm_nonneg hρ (x' - x)
    rw [R.value_qubo I, R.value_qubo I, Exact.real_le_real, hz, hs, hy, sub_zero, sub_zero, sub_self,
      residualTerm_zero]
    linarith

/-- From an optimal binary vector the relaxed copy moves to it and the continuous vector is optimal. -/
theorem updatesTo_of_optimum {oracle : Oracle (Program Exact) Exact σ} (hx : I.x = x)
    (hopt : d.problem.IsContinuousOptimum (Vec.ofReal x) (Vec.ofReal u))
    (hexact : d.needsProgram = true → oracle.Solves Program.IsMinimiser (d.program it) st) :
    ∃ u', (d.updateContinuous oracle it st).1 =
        .ok { it with z := Vec.ofReal x, u := Vec.ofReal u' } ∧
      R.continuousValue u' = R.continuousValue u := by
  obtain ⟨z', u', ⟨hupdate, hleast⟩, hfeasible⟩ := R.updatesTo_feasible I hρ hexact
  have hle := hleast x u hopt.feasible
  have hpart := R.continuousValue_le_of_optimum hopt (hfeasible x u hopt.feasible)
  rw [hx, hs, hy, sub_zero, sub_zero, sub_self, residualTerm_zero] at hle
  have hnonneg := residualTerm_nonneg hρ (x - z')
  have hdistance : x - z' = 0 := eq_zero_of_residualTerm_nonpos hρ (by linarith)
  rw [← sub_eq_zero.1 hdistance] at hupdate
  exact ⟨u', hupdate, by linarith⟩

/-- Where the relaxed copy has not moved and agrees with the binary vector, the residuals are zero. -/
theorem finish_of_agreement {zBefore : Vec Exact} (hbefore : zBefore = Vec.ofReal x) (hx : I.x = x)
    (hz : I.z = x) :
    (d.finish zBefore it).measures.primal = 0.0 ∧ (d.finish zBefore it).measures.dual = 0.0 := by
  have hnorm : (Vec.ofReal (0 : Fin d.problem.numBinary → ℝ)).norm = .real 0 := by
    rw [Vec.norm_ofReal, zero_dotProduct, Real.sqrt_zero]
  have hslack : (d.finish zBefore it).s = Vec.ofReal (0 : Fin d.problem.numBinary → ℝ) := by
    rw [finish_s]
    split
    · rw [R.slack_ofReal I hρ, hx, hz, hy, sub_self, smul_zero, add_zero, smul_zero]
    · rw [I.s_eq, hs]
  refine ⟨?_, ?_⟩
  · rw [finish_primal, hslack, I.x_eq, I.z_eq, hx, hz, Vec.ofReal_sub, Vec.ofReal_sub, sub_self, sub_zero,
      hnorm, Exact.zero_literal]
  · rw [finish_dual, hbefore, I.z_eq, I.rho_eq, hz, Vec.ofReal_sub, sub_self, hnorm, Exact.real_mul,
      mul_zero, Exact.zero_literal]

end optimum

end Decomposition.Reals

/-! ## The first pass -/

namespace Engine

variable {σ : Type} {e : Engine Exact σ} {start : Iterate Exact} {st : σ}

theorem pass_of_optimum (R : e.decomposition.Reals) (I : e.decomposition.Point start) (hρ : 0 < I.rho)
    (hs : I.s = 0) (hy : I.y = 0) {u : Fin e.decomposition.problem.numContinuous → ℝ}
    (hx : e.decomposition.problem.IsPenalisedOptimum e.decomposition.params.equalityWeight (Vec.ofReal I.z))
    (hu : e.decomposition.problem.IsContinuousOptimum (Vec.ofReal I.z) (Vec.ofReal u))
    (hexact : e.AnswersExactly start st) :
    ∃ next st', e.decomposition.pass e.oracles start st = (.ok next, st') ∧ next.x = start.z ∧
      next.measures.primal = 0.0 ∧ next.measures.dual = 0.0 ∧
      e.decomposition.problem.continuousObjective next.u =
        e.decomposition.problem.continuousObjective (Vec.ofReal u) := by
  -- the binary vector
  obtain ⟨answer, hanswer, hminimiser⟩ := hexact.binary
  obtain rfl := (R.isMinimiser_iff_of_optimum I hρ hs hy rfl hx answer).1 hminimiser
  have haccept : acceptBinary e.decomposition.problem.numBinary
      (e.oracles.binary (e.decomposition.qubo start) st).1 = .ok (Vec.ofReal I.z) := by
    rw [hanswer]
    exact acceptBinary_of_snap? hx.binary.1 hx.binary.snap?_eq
  -- the relaxed copy and the continuous vector
  obtain ⟨u', hupdate, hvalue⟩ :=
    R.updatesTo_of_optimum (I.setBinary I.z) hρ hs hy rfl hu (hexact.continuous _ hanswer)
  -- the slack and the multipliers
  let updated : Iterate Exact :=
    { start with x := Vec.ofReal I.z, z := Vec.ofReal I.z, u := Vec.ofReal u' }
  obtain ⟨hprimal, hdual⟩ :=
    R.finish_of_agreement ((I.setBinary I.z).setPair I.z u') hρ hs hy I.z_eq rfl rfl
  have hpass : e.decomposition.pass e.oracles start st =
      (.ok (e.decomposition.finish start.z updated), _) :=
    Decomposition.pass_of_updated haccept (Prod.ext hupdate rfl)
  refine ⟨_, _, hpass, ?_, hprimal, hdual, ?_⟩
  · exact (Decomposition.finish_x ..).trans I.z_eq.symm
  · rw [Decomposition.finish_u, R.continuousObjective_ofReal, R.continuousObjective_ofReal, hvalue]

variable {kernels : Kernels Exact} {p : Problem Exact} {params : Params Exact} {supplied : Iterate Exact}

theorem exists_point_of_normalize
    (hcreate : Decomposition.create kernels p params = .ok e.decomposition)
    (hnormalize : e.decomposition.normalize supplied = .ok start)
    (hrho : Scalar.isFinite start.rho = true) (hs : supplied.s = Vec.zero p.numBinary)
    (hy : supplied.y = Vec.zero p.numBinary) :
    ∃ I : e.decomposition.Point start, 0 < I.rho ∧ I.s = 0 ∧ I.y = 0 ∧ Vec.ofReal I.z = supplied.z := by
  obtain ⟨hproblem, -, haccepted, hvalid⟩ := Decomposition.create_ok hcreate
  subst hproblem
  have hstart : e.decomposition.IsStart start := Or.inr ⟨some supplied, hnormalize⟩
  obtain ⟨I⟩ := (hstart.hasVectors haccepted).exists_point hrho
  have hpos : 0.0 < start.rho := hstart.rho_pos (Params.validate_ok_iff.1 hvalid) (by simp [I.rho_eq])
  have hform := Decomposition.isFormOf_of_normalize hnormalize
  refine ⟨I, by simpa [I.rho_eq] using hpos, ?_, ?_, ?_⟩
  · rw [← Vec.ofReal_inj, ← I.s_eq, ← Vec.zero_eq_ofReal, hform.s, hs, Vec.size_zero, ite_self]
  · rw [← Vec.ofReal_inj, ← I.y_eq, ← Vec.zero_eq_ofReal, hform.kept.2.2, hy]
  · rw [← I.z_eq, hform.kept.1]

/-- **A run from an optimum converges in its first pass**, with exact oracles, for every problem and all
parameters. -/
theorem solveFrom_optimum {x u : Vec Exact}
    (hcreate : Decomposition.create kernels p params = .ok e.decomposition)
    (hnormalize : e.decomposition.normalize supplied = .ok start)
    (hrho : Scalar.isFinite start.rho = true) (hz : supplied.z = x)
    (hs : supplied.s = Vec.zero p.numBinary) (hy : supplied.y = Vec.zero p.numBinary)
    (hx : p.IsPenalisedOptimum params.equalityWeight x) (hu : p.IsContinuousOptimum x u)
    (hexact : e.AnswersExactly start st) :
    ∃ r record st', e.solveFrom supplied st = (.ok r, st') ∧ r.stop = .converged ∧ r.iterations = 1 ∧
      r.history.records = [record] ∧ record.primal = 0.0 ∧ record.dual = 0.0 ∧ r.x = x ∧
      r.objective = p.binaryObjective x + p.continuousObjective u + p.constant := by
  obtain ⟨R⟩ := Decomposition.exists_reals hcreate
  obtain ⟨I, hρ, hIs, hIy, hIz⟩ := exists_point_of_normalize hcreate hnormalize hrho hs hy
  obtain ⟨hproblem, hparams, -, hvalid⟩ := Decomposition.create_ok hcreate
  subst hproblem hparams hz
  obtain ⟨v, rfl⟩ := Vec.eq_ofReal hu.finite.1 hu.finite.2
  rw [← hIz] at hx hu ⊢
  obtain ⟨next, st', hpass, hnext, hprimal, hdual, hvalue⟩ :=
    pass_of_optimum R I hρ hIs hIy hx hu hexact
  have hadmissible := Params.validate_ok_iff.1 hvalid
  have hmet : e.decomposition.params.isMet next.measures = true := by
    unfold Params.isMet
    rw [hprimal, hdual, decide_eq_true hadmissible.tolerance_pos,
      decide_eq_true hadmissible.dualTolerance_pos, Bool.or_true, Bool.and_true]
  have hmakes : e.Makes start st [⟨start.rho, next⟩] (.stopped .converged) st' :=
    .stopped hpass (Params.stop?_converged hmet)
  have hstart : e.decomposition.startAt (some supplied) = .ok start := hnormalize
  rw [I.z_eq] at hnext
  refine ⟨_, _, st', solveAt_of_makes hvalid hstart hmakes, rfl, rfl, rfl, hprimal, hdual, hnext, ?_⟩
  show e.decomposition.problem.objective next.x next.u = _
  rw [Problem.objective, hnext, hvalue]

end Engine

namespace Problem

theorem penalised_shared {weight : Exact} {x : Vec Exact} (hx : x.IsBinary 1) :
    (shared 0).binaryObjective x + (shared 0).equalityPenalty weight x = .real 0 := by
  obtain ⟨f, -, rfl⟩ := hx.exists_ofReal
  rw [← Vec.single_eq_ofReal, binaryObjective_shared, equalityPenalty, if_pos (shared_sizes 0).2.2.1,
    Exact.zero_literal, Exact.real_add, zero_mul, add_zero]

theorem isPenalisedOptimum_shared {weight : Exact} {x : Vec Exact} (hx : x.IsBinary 1) :
    (shared 0).IsPenalisedOptimum weight x := by
  have hn := (shared_sizes 0).1
  refine ⟨hn ▸ hx, fun x' hx' => ?_⟩
  rw [penalised_shared hx, penalised_shared (hn ▸ hx')]
  exact Exact.real_le_real.2 le_rfl

theorem isContinuousOptimum_shared (a : ℝ) : (shared a).IsContinuousOptimum (.single 0) (.single (1 / 2)) := by
  have hobjective (t : ℝ) : (shared a).continuousObjective (.single t) = .real (1 * (t * t) + -1 * t) :=
    continuousObjective_mixed _ t
  refine ⟨⟨rfl, Vec.allFinite_single _⟩, (isBlockFeasible_shared_iff a 0 (1 / 2)).2 (by norm_num), ?_⟩
  intro z v _ _ hsize hfinite _
  obtain ⟨f, rfl⟩ := Vec.eq_ofReal (hsize.trans (shared_sizes a).2.1) hfinite
  rw [← Vec.single_eq_ofReal, hobjective, hobjective, Exact.real_le_real]
  nlinarith [sq_nonneg (f 0 - 1 / 2)]

end Problem

namespace Decomposition

variable {a x z s y u ρ : ℝ}

theorem normalize_shared (hx : x = 0 ∨ x = 1) (hlo : 1 ≤ ρ) (hhi : ρ ≤ 10000000) :
    (shared a).normalize (.ofReal ![x] ![z] ![s] ![y] ![u] ρ) = .ok (.ofReal ![x] ![z] ![s] ![y] ![u] ρ) := by
  have hvectors : (shared a).HasVectors (.ofReal ![x] ![z] ![s] ![y] ![u] ρ) := hasVectors_shared a
  have hshape : (shared a).HasShape (.ofReal ![x] ![z] ![s] ![y] ![u] ρ) := by
    refine ⟨?_, hvectors.z.1, hvectors.u, hvectors.s.1, hvectors.y.1, nofun⟩
    rw [(sizes_shared a).1]
    exact Vec.isBinary_ofReal fun i => hx.imp (congrArg ![x] (Subsingleton.elim i 0)).trans
      (congrArg ![x] (Subsingleton.elim i 0)).trans
  obtain ⟨hmin, hmax⟩ := Engine.standard_rho_within hlo hhi
  exact normalize_of_hasShape hvectors hshape (Scalar.clamp_of_mem hmin hmax)

end Decomposition

namespace Engine

/-- Both binary values are optimal. The run begins at one with its copy at zero, where the continuous variable has its
share to the full. -/
theorem solveFrom_optimum_shared :
    let p := Problem.shared 0
    let e : Engine Exact Unit :=
      { decomposition := .shared 0
        oracles.binary := .ofFunction fun _ => .ok (.single 0)
        oracles.continuous := .ofFunction fun _ => .ok (.single 0 ++ .single (1 / 2))
        clock := fun _ => 0.0 }
    let x : Vec Exact := .single 0
    let u : Vec Exact := .single (1 / 2)
    let supplied := Iterate.ofReal ![1] ![0] ![0] ![0] ![0] 2
    Decomposition.create .standard p .standard = .ok e.decomposition ∧
      supplied.z = x ∧ supplied.s = Vec.zero p.numBinary ∧ supplied.y = Vec.zero p.numBinary ∧
      (∀ x', x'.IsBinary 1 → p.IsPenalisedOptimum (Params.standard : Params Exact).equalityWeight x') ∧
      p.IsContinuousOptimum x u ∧ e.decomposition.closedForm = false ∧
      ∃ start, e.decomposition.normalize supplied = .ok start ∧ Scalar.isFinite start.rho = true ∧
        e.AnswersExactly start () ∧
        ∃ r record st', e.solveFrom supplied () = (.ok r, st') ∧ r.stop = .converged ∧
          r.iterations = 1 ∧ r.history.records = [record] ∧ record.primal = 0.0 ∧ record.dual = 0.0 ∧
          r.x = x ∧ r.objective = p.binaryObjective x + p.continuousObjective u + p.constant := by
  intro p e x u supplied
  have hcreate : Decomposition.create .standard p .standard = .ok e.decomposition := Decomposition.create_shared _
  have hzero : x.IsBinary 1 := by
    rw [show x = _ from Vec.single_eq_ofReal fun _ => 0]
    exact Vec.isBinary_ofReal fun _ => Or.inl rfl
  have hempty : Vec.ofReal ![0] = Vec.zero p.numBinary := by
    rw [(Problem.shared_sizes 0).1, ← Vec.single_eq_ofReal]
    exact congrArg (fun v : Exact => (⟨#[v]⟩ : Vec Exact)) Exact.zero_literal.symm
  have hnormalize : e.decomposition.normalize supplied = .ok supplied :=
    Decomposition.normalize_shared (Or.inr rfl) one_le_two (by norm_num)
  have hrho : Scalar.isFinite supplied.rho = true := Exact.isFinite_iff.2 ⟨2, rfl⟩
  have hexact : e.AnswersExactly supplied () := by
    refine ⟨⟨x, rfl, Decomposition.isMinimiser_qubo_shared (Or.inl rfl) ?_⟩, ?_⟩
    · intro b _
      nlinarith
    · intro x' hx' _
      obtain rfl : x = x' := Except.ok.inj hx'
      refine ⟨_, rfl, Decomposition.isMinimiser_program_shared (by norm_num) (by norm_num) one_half_pos.le ?_⟩
      intro z v hz hsum hv
      nlinarith [sq_nonneg (v - 1 / 2), sq_nonneg z]
  exact ⟨hcreate, rfl, hempty, hempty, fun _ => Problem.isPenalisedOptimum_shared, Problem.isContinuousOptimum_shared 0,
    Decomposition.closedForm_shared _, supplied, hnormalize, hrho, hexact,
    solveFrom_optimum hcreate hnormalize hrho rfl hempty hempty (Problem.isPenalisedOptimum_shared hzero)
      (Problem.isContinuousOptimum_shared 0) hexact⟩

end Engine

end BinarySplitting
