import BinarySplitting.Linear.Standard
import BinarySplitting.Proofs.Decomposition.ClosedForms
import BinarySplitting.Proofs.Decomposition.ContinuousBlock
import BinarySplitting.Proofs.Engine.Snap
import BinarySplitting.Proofs.Problem.Mixed

/-!
# A pass descends

A pass minimises the augmented Lagrangian over one block after another, so with exact oracles its
value never rises; the update of the multipliers then raises it by the penalty times the square of
the residual (`Engine.step_lagrangian`).

Three of the updates are minimisers: of a quadratic binary problem and of a convex program by what
the oracles answer (`Reals.binary_minimises`, `Reals.updatesTo`), and of a parabola in each entry
where a closed form stands (`Reals.finish_updates`).
-/

namespace BinarySplitting

open Matrix

/-- Asked for a subproblem in a state, the oracle answers with a solution. -/
def Oracle.Solves {ι α σ : Type} (oracle : Oracle ι α σ) (IsSolution : ι → Vec α → Prop) (i : ι)
    (st : σ) : Prop :=
  ∃ w, (oracle i st).1 = .ok w ∧ IsSolution i w

namespace Decomposition

variable {d : Decomposition Exact} {it : Iterate Exact} {σ : Type} {st : σ}

theorem HasVectors.exists_point (h : d.HasVectors it) (hrho : Scalar.isFinite it.rho = true) :
    Nonempty (d.Point it) := by
  obtain ⟨x, hx⟩ := Vec.eq_ofReal h.x.1 h.x.2
  obtain ⟨z, hz⟩ := Vec.eq_ofReal h.z.1 h.z.2
  obtain ⟨s, hs⟩ := Vec.eq_ofReal h.s.1 h.s.2
  obtain ⟨y, hy⟩ := Vec.eq_ofReal h.y.1 h.y.2
  obtain ⟨u, hu⟩ := Vec.eq_ofReal h.u.1 h.u.2
  obtain ⟨ρ, hρ⟩ := Exact.isFinite_iff.1 hrho
  exact ⟨⟨x, z, s, y, u, ρ, hx, hz, hs, hy, hu, hρ⟩⟩

theorem Point.hasVectors (I : d.Point it) : d.HasVectors it :=
  ⟨Vec.size_and_allFinite_of_eq_ofReal I.x_eq, Vec.size_and_allFinite_of_eq_ofReal I.z_eq,
    Vec.size_and_allFinite_of_eq_ofReal I.s_eq, Vec.size_and_allFinite_of_eq_ofReal I.y_eq,
    Vec.size_and_allFinite_of_eq_ofReal I.u_eq⟩

/-- The relaxed copy in closed form, over the reals. -/
noncomputable def Point.consensus (I : d.Point it) : Fin d.problem.numBinary → ℝ :=
  fun i => unitClamp ((I.x - I.s + I.rho⁻¹ • I.y) i)

namespace Reals

variable (R : d.Reals) (I : d.Point it)

/-! ## The binary vector -/

include R I in
theorem numVariables_qubo : (d.qubo it).numVariables = d.problem.numBinary := by
  rw [R.qubo_eq_ofReal I, Qubo.numVariables_ofReal]

/-- A minimiser of the binary problem minimises the augmented Lagrangian over the binary vectors. -/
theorem binary_minimises {answer : Vec Exact} (hanswer : (d.qubo it).IsMinimiser answer) :
    answer.IsBinary d.problem.numBinary ∧
    ∃ x' : Fin d.problem.numBinary → ℝ, answer = Vec.ofReal x' ∧
      ∀ x, (Vec.ofReal x).IsBinary d.problem.numBinary →
        R.binaryPart x' + residualTerm I.y I.rho (x' - I.z - I.s) ≤
          R.binaryPart x + residualTerm I.y I.rho (x - I.z - I.s) := by
  obtain ⟨hbinary, hleast⟩ := hanswer
  rw [numVariables_qubo R I] at hbinary hleast
  obtain ⟨x', -, rfl⟩ := hbinary.exists_ofReal
  refine ⟨hbinary, x', rfl, ?_⟩
  intro x hx
  have hle := hleast _ hx
  rwa [R.value_qubo I, R.value_qubo I, Exact.real_le_real] at hle

/-! ## The relaxed copy and the continuous vector -/

omit R in
theorem consensus_ofReal (hρ : 0 < I.rho) : d.consensus it = Vec.ofReal I.consensus := by
  unfold consensus Point.consensus
  rw [I.x_eq, I.s_eq, I.y_eq, I.rho_eq, Vec.ofReal_divBy hρ.ne', Vec.ofReal_sub, Vec.ofReal_add,
    Vec.withinUnit_ofReal]

omit R in
theorem relax_ofReal (hρ : 0 < I.rho) (hclosed : d.closedForm = true) :
    d.relax it = { it with z := Vec.ofReal I.consensus } := by
  unfold relax
  rw [if_pos hclosed, consensus_ofReal I hρ]

omit R in
theorem place_closed (hρ : 0 < I.rho) (hform : d.closedForm = true) (hl : d.problem.numContinuous ≠ 0)
    (u' : Fin d.problem.numContinuous → ℝ) :
    d.place (d.relax it) (Vec.ofReal u') =
      { it with z := Vec.ofReal I.consensus, u := Vec.ofReal u' } := by
  rw [relax_ofReal I hρ hform]
  unfold place
  dsimp only
  rw [numRelaxed_closed hform, if_pos rfl, if_neg hl, slice_self]

/-- What the update of the continuous block comes to with an exact oracle. -/
def UpdatesTo (I : d.Point it) (oracle : Oracle (Program Exact) Exact σ) (st : σ)
    (z' : Fin d.problem.numBinary → ℝ) (u' : Fin d.problem.numContinuous → ℝ) : Prop :=
  (d.updateContinuous oracle it st).1 = .ok { it with z := Vec.ofReal z', u := Vec.ofReal u' } ∧
    ∀ z u, d.problem.IsBlockFeasible (Vec.ofReal z) (Vec.ofReal u) →
      R.continuousValue u' + residualTerm I.y I.rho (I.x - z' - I.s) ≤
        R.continuousValue u + residualTerm I.y I.rho (I.x - z - I.s)

omit R in
include I in
theorem place_joint (hform : d.closedForm = false) {z' : Fin d.problem.numBinary → ℝ}
    (hunit : ∀ i, 0 ≤ z' i ∧ z' i ≤ 1) (hpos : 0 < d.problem.numBinary)
    (u' : Fin d.problem.numContinuous → ℝ) :
    d.place it (Vec.ofReal (Fin.append z' u')) =
      { it with z := Vec.ofReal z', u := Vec.ofReal u' } := by
  have hz : (Vec.ofReal z').withinUnit = Vec.ofReal z' := by
    rw [Vec.withinUnit_ofReal]
    congr 1
    funext i
    exact unitClamp_of_mem (hunit i)
  have hu : (if d.problem.numContinuous = 0 then it.u else Vec.ofReal u') = Vec.ofReal u' := by
    split
    · next hl =>
      have hempty : IsEmpty (Fin d.problem.numContinuous) := by rw [hl]; infer_instance
      rw [I.u_eq, Subsingleton.elim I.u u']
    · rfl
  unfold place
  dsimp only
  rw [numRelaxed_joint hform, if_neg hpos.ne', slice_append_left, slice_append_right, hz, hu]

include R I in
theorem updateContinuous_joint {oracle : Oracle (Program Exact) Exact σ} (hform : d.closedForm = false)
    {z' : Fin d.problem.numBinary → ℝ} {u' : Fin d.problem.numContinuous → ℝ}
    (hanswer : (oracle (d.program it) st).1 = .ok (Vec.ofReal (Fin.append z' u')))
    (hblock : d.problem.IsBlockFeasible (Vec.ofReal z') (Vec.ofReal u')) :
    (d.updateContinuous oracle it st).1 = .ok { it with z := Vec.ofReal z', u := Vec.ofReal u' } := by
  have hneeds : d.needsProgram = true := by simp [needsProgram, hform]
  have hrelax : d.relax it = it := by simp [relax, hform]
  have hunit := ((R.isBlockFeasible_ofReal z' u').1 hblock).1
  rw [← program_relax] at hanswer
  rw [updateContinuous_of_answer hneeds hanswer
      (by rw [Vec.size_ofReal, numRelaxed_joint hform]) (Vec.allFinite_ofReal _),
    hrelax, place_joint I hform hunit R.numBinary_pos]

theorem isMinimiser_joint (hform : d.closedForm = false) {z : Fin d.problem.numBinary → ℝ}
    {u : Fin d.problem.numContinuous → ℝ} (hblock : d.problem.IsBlockFeasible (Vec.ofReal z) (Vec.ofReal u))
    (hleast : ∀ z' u', d.problem.IsBlockFeasible (Vec.ofReal z') (Vec.ofReal u') →
      R.continuousValue u + residualTerm I.y I.rho (I.x - z - I.s) ≤
        R.continuousValue u' + residualTerm I.y I.rho (I.x - z' - I.s)) :
    (d.program it).IsMinimiser (Vec.ofReal z ++ Vec.ofReal u) := by
  rw [Vec.ofReal_append]
  refine ⟨(R.isFeasible_joint hform I z u).2 hblock, fun w hw => ?_⟩
  obtain ⟨v, rfl⟩ := hw.exists_ofReal (R.dimension_joint hform I)
  obtain ⟨z', u', rfl⟩ : ∃ z' u', v = Fin.append z' u' :=
    ⟨_, _, (Fin.append_castAdd_natAdd (f := v)).symm⟩
  have hle := hleast z' u' ((R.isFeasible_joint hform I z' u').1 hw)
  rwa [R.objective_joint hform I, R.objective_joint hform I, Exact.real_le_real]

theorem updatesTo_joint {oracle : Oracle (Program Exact) Exact σ} (hform : d.closedForm = false)
    (hexact : oracle.Solves Program.IsMinimiser (d.program it) st) :
    ∃ z' u', R.UpdatesTo I oracle st z' u' ∧
      d.problem.IsBlockFeasible (Vec.ofReal z') (Vec.ofReal u') := by
  obtain ⟨w, hanswer, hfeasible, hleast⟩ := hexact
  obtain ⟨v, rfl⟩ := hfeasible.exists_ofReal (R.dimension_joint hform I)
  obtain ⟨z', u', rfl⟩ : ∃ z' u', v = Fin.append z' u' :=
    ⟨_, _, (Fin.append_castAdd_natAdd (f := v)).symm⟩
  have hblock := (R.isFeasible_joint hform I z' u').1 hfeasible
  refine ⟨z', u', ⟨R.updateContinuous_joint I hform hanswer hblock, ?_⟩, hblock⟩
  intro z u hzu
  have hle := hleast _ ((R.isFeasible_joint hform I z u).2 hzu)
  rwa [R.objective_joint hform I, R.objective_joint hform I, Exact.real_le_real] at hle

/-- In closed form the objective splits: the relaxed copy and the continuous vector are minimised
one by one. -/
theorem updatesTo_closed {oracle : Oracle (Program Exact) Exact σ} (hρ : 0 < I.rho)
    (hform : d.closedForm = true)
    (hexact : d.needsProgram = true → oracle.Solves Program.IsMinimiser (d.program it) st) :
    ∃ z' u', R.UpdatesTo I oracle st z' u' ∧
      ∀ (z : Fin d.problem.numBinary → ℝ) (u : Fin d.problem.numContinuous → ℝ),
        d.problem.IsBlockFeasible (Vec.ofReal z) (Vec.ofReal u) →
          d.problem.IsBlockFeasible (Vec.ofReal z') (Vec.ofReal u') := by
  have hclamp : ∀ z, (∀ i, 0 ≤ z i ∧ z i ≤ 1) →
      residualTerm I.y I.rho (I.x - I.consensus - I.s) ≤
        residualTerm I.y I.rho (I.x - z - I.s) := fun z hz => by
    rw [sub_right_comm I.x, sub_right_comm I.x z]
    exact residualTerm_clamp_le hρ I.y (I.x - I.s) hz
  by_cases hl : d.problem.numContinuous = 0
  · have hneeds : d.needsProgram = false := by simp [needsProgram, hform, hl]
    have hempty : IsEmpty (Fin d.problem.numContinuous) := by rw [hl]; infer_instance
    refine ⟨I.consensus, I.u, ⟨?_, ?_⟩, ?_⟩
    · rw [updateContinuous_of_closed _ hneeds, relax_ofReal I hρ hform, ← I.u_eq]
    · intro z u hzu
      rw [Subsingleton.elim u I.u]
      have hunit := ((R.isBlockFeasible_ofReal z u).1 hzu).1
      have hle := hclamp z hunit
      linarith
    · intro z u hzu
      have hprogram : (d.program it).IsFeasible (Vec.ofReal u) :=
        ((R.isBlockFeasible_closed hform z u).1 hzu).2
      rw [Subsingleton.elim I.u u]
      exact (R.isBlockFeasible_closed hform _ _).2 ⟨fun i => unitClamp_mem _, hprogram⟩
  · have hneeds : d.needsProgram = true := by simp [needsProgram, hl]
    obtain ⟨w, hanswer, hfeasible, hleast⟩ := hexact hneeds
    obtain ⟨u', rfl⟩ := hfeasible.exists_ofReal (R.dimension_closed hform)
    refine ⟨I.consensus, u', ⟨?_, ?_⟩, fun _ _ _ => ?_⟩
    · rw [← program_relax] at hanswer
      rw [updateContinuous_of_answer hneeds hanswer
          (by rw [Vec.size_ofReal, numRelaxed_closed hform, Nat.zero_add]) (Vec.allFinite_ofReal _),
        place_closed I hρ hform hl]
    · intro z u hzu
      obtain ⟨hunit, hu⟩ := (R.isBlockFeasible_closed hform z u).1 hzu
      have hle := hleast _ hu
      rw [R.objective_closed hform, R.objective_closed hform, Exact.real_le_real] at hle
      have hle' := hclamp z hunit
      linarith
    · exact (R.isBlockFeasible_closed hform _ _).2 ⟨fun i => unitClamp_mem _, hfeasible⟩

/-- The updated pair is feasible if there is a feasible one: where nothing is solved for, it cannot help
a row that no vector satisfies. -/
theorem updatesTo_feasible {oracle : Oracle (Program Exact) Exact σ} (hρ : 0 < I.rho)
    (hexact : d.needsProgram = true → oracle.Solves Program.IsMinimiser (d.program it) st) :
    ∃ z' u', R.UpdatesTo I oracle st z' u' ∧
      ∀ (z : Fin d.problem.numBinary → ℝ) (u : Fin d.problem.numContinuous → ℝ),
        d.problem.IsBlockFeasible (Vec.ofReal z) (Vec.ofReal u) →
          d.problem.IsBlockFeasible (Vec.ofReal z') (Vec.ofReal u') := by
  cases hform : d.closedForm with
  | true => exact R.updatesTo_closed I hρ hform hexact
  | false =>
    obtain ⟨z', u', hupdate, hblock⟩ :=
      R.updatesTo_joint I hform (hexact (by simp [needsProgram, hform]))
    exact ⟨z', u', hupdate, fun _ _ _ => hblock⟩

theorem updatesTo {oracle : Oracle (Program Exact) Exact σ} (hρ : 0 < I.rho)
    (hexact : d.needsProgram = true → oracle.Solves Program.IsMinimiser (d.program it) st) :
    ∃ z' u', R.UpdatesTo I oracle st z' u' := by
  obtain ⟨z', u', hupdate, -⟩ := R.updatesTo_feasible I hρ hexact
  exact ⟨z', u', hupdate⟩

/-! ## The slack and the multipliers -/

theorem slack_ofReal (hρ : 0 < I.rho) :
    d.slack it = Vec.ofReal ((R.beta + I.rho)⁻¹ • (I.y + I.rho • (I.x - I.z))) := by
  have hne : R.beta + I.rho ≠ 0 := (add_pos_of_nonneg_of_pos R.beta_nonneg hρ).ne'
  unfold slack
  rw [I.x_eq, I.z_eq, I.y_eq, I.rho_eq, R.beta_eq, Exact.real_add, Vec.ofReal_sub, Vec.ofReal_smul,
    Vec.ofReal_add, Vec.ofReal_divBy hne]

/-- The end of a pass: a slack that is no worse, and the multipliers that belong to it. -/
theorem finish_updates (hρ : 0 < I.rho) (zBefore : Vec Exact) :
    ∃ s', (d.finish zBefore it).s = Vec.ofReal s' ∧
      (d.finish zBefore it).y = Vec.ofReal (I.y + I.rho • (I.x - I.z - s')) ∧
      1 / 2 * R.beta * (s' ⬝ᵥ s') + residualTerm I.y I.rho (I.x - I.z - s') ≤
        1 / 2 * R.beta * (I.s ⬝ᵥ I.s) + residualTerm I.y I.rho (I.x - I.z - I.s) := by
  have hy : ∀ s', (d.finish zBefore it).s = Vec.ofReal s' →
      (d.finish zBefore it).y = Vec.ofReal (I.y + I.rho • (I.x - I.z - s')) := fun s' hs => by
    rw [finish_y, hs, I.x_eq, I.z_eq, I.y_eq, I.rho_eq, Vec.ofReal_sub, Vec.ofReal_sub,
      Vec.ofReal_smul, Vec.ofReal_add]
  cases hthree : d.params.threeBlock with
  | true =>
    have hs : (d.finish zBefore it).s =
        Vec.ofReal ((R.beta + I.rho)⁻¹ • (I.y + I.rho • (I.x - I.z))) := by
      rw [finish_s, if_pos hthree, R.slack_ofReal I hρ]
    refine ⟨_, hs, hy _ hs, ?_⟩
    exact slack_term_le (add_pos_of_nonneg_of_pos R.beta_nonneg hρ) I.y (I.x - I.z) I.s
  | false =>
    have hs : (d.finish zBefore it).s = Vec.ofReal I.s := by
      rw [finish_s, if_neg (by simp [hthree]), I.s_eq]
    exact ⟨I.s, hs, hy _ hs, le_rfl⟩

end Reals

end Decomposition

/-! ## A pass -/

/-- Asked in a pass from this iterate and this state, the oracles answer with minimisers. -/
structure Engine.AnswersExactly {α σ : Type} [Scalar α] (e : Engine α σ) (it : Iterate α) (st : σ) :
    Prop where
  binary : e.oracles.binary.Solves Qubo.IsMinimiser (e.decomposition.qubo it) st
  continuous : ∀ x, (e.oracles.binary (e.decomposition.qubo it) st).1 = .ok x →
    e.decomposition.needsProgram = true →
    e.oracles.continuous.Solves Program.IsMinimiser (e.decomposition.program { it with x })
      (e.oracles.binary (e.decomposition.qubo it) st).2

/-- **A pass with exact oracles never raises the augmented Lagrangian**, and the new multipliers then
raise it by the penalty times the square of the residual. -/
theorem Engine.step_lagrangian {σ : Type} {e : Engine Exact σ} {kernels : Kernels Exact}
    {p : Problem Exact} {params : Params Exact} {it : Iterate Exact} {st : σ}
    (hcreate : Decomposition.create kernels p params = .ok e.decomposition)
    (hcheck : e.decomposition.checkPass it = .ok ()) (hrho : Scalar.isFinite it.rho = true)
    (hbinary : it.x.IsBinary p.numBinary) (hfeasible : p.IsBlockFeasible it.z it.u)
    (hexact : e.AnswersExactly it st) :
    ∃ next, (e.step it st).1 = .ok next ∧
      e.decomposition.lagrangian next.x next.z next.u next.s it.y it.rho ≤
        e.decomposition.lagrangian it.x it.z it.u it.s it.y it.rho ∧
      e.decomposition.lagrangian next.x next.z next.u next.s next.y it.rho =
        e.decomposition.lagrangian next.x next.z next.u next.s it.y it.rho +
          it.rho * ((next.x - next.z - next.s).norm * (next.x - next.z - next.s).norm) := by
  obtain ⟨R⟩ := Decomposition.exists_reals hcreate
  have hproblem : e.decomposition.problem = p := by
    rw [(Decomposition.create_eq_ok_iff.1 hcreate).2.2, Decomposition.ofProblem_problem]
  subst hproblem
  obtain ⟨hvectors, hpositive⟩ := Decomposition.checkPass_ok.1 hcheck
  obtain ⟨I⟩ := hvectors.exists_point hrho
  have hρ : 0 < I.rho := by simpa [I.rho_eq] using hpositive
  -- the binary vector
  obtain ⟨answer, hanswer, hminimiser⟩ := hexact.binary
  obtain ⟨hx', x', rfl, hdescent⟩ := R.binary_minimises I hminimiser
  rw [I.x_eq] at hbinary
  rw [I.z_eq, I.u_eq] at hfeasible
  have hbinaryStep := hdescent I.x hbinary
  -- the relaxed copy and the continuous vector
  let I' : e.decomposition.Point { it with x := Vec.ofReal x' } :=
    ⟨x', I.z, I.s, I.y, I.u, I.rho, rfl, I.z_eq, I.s_eq, I.y_eq, I.u_eq, I.rho_eq⟩
  obtain ⟨z', u', hupdate, hdescent'⟩ := R.updatesTo I' hρ (hexact.continuous _ hanswer)
  have hcontinuousStep := hdescent' I.z I.u hfeasible
  -- the slack and the multipliers
  let updated : Iterate Exact := { it with x := Vec.ofReal x', z := Vec.ofReal z', u := Vec.ofReal u' }
  let J : e.decomposition.Point updated :=
    ⟨x', z', I.s, I.y, u', I.rho, rfl, rfl, I.s_eq, I.y_eq, rfl, I.rho_eq⟩
  obtain ⟨s', hs, hy, hslackStep⟩ := R.finish_updates J hρ it.z
  have haccept : acceptBinary e.decomposition.problem.numBinary
      (e.oracles.binary (e.decomposition.qubo it) st).1 = .ok (Vec.ofReal x') := by
    rw [hanswer]
    exact acceptBinary_of_snap? hx'.1 hx'.snap?_eq
  have hpass : e.decomposition.pass e.oracles it st = (.ok (e.decomposition.finish it.z updated), _) :=
    Decomposition.pass_of_updated haccept (Prod.ext hupdate rfl)
  refine ⟨e.decomposition.finish it.z updated, ?_, ?_, ?_⟩
  · rw [step_of_accepted hcheck, hpass]
    rfl
  · rw [Decomposition.finish_x, Decomposition.finish_z, Decomposition.finish_u, hs, I.x_eq, I.z_eq,
      I.u_eq, I.s_eq, I.y_eq, I.rho_eq, R.lagrangian_ofReal, R.lagrangian_ofReal, Exact.real_le_real]
    unfold Decomposition.Reals.lagrangian
    linarith
  · rw [Decomposition.finish_x, Decomposition.finish_z, Decomposition.finish_u, hs, hy, I.y_eq, I.rho_eq,
      R.lagrangian_ofReal, R.lagrangian_ofReal, Vec.ofReal_sub, Vec.ofReal_sub, Vec.norm_mul_self_ofReal,
      Exact.real_mul, Exact.real_add, Exact.real_inj]
    exact R.lagrangian_dual x' z' u' s' I.y

/-! ## Shared variables -/

namespace Decomposition

section shared

variable {a : ℝ}

theorem residualTerm_const {n : ℕ} (hn : n = 1) (y ρ b : ℝ) :
    residualTerm (fun _ : Fin n => y) ρ (fun _ => b) = y * b + 1 / 2 * ρ * (b * b) := by
  subst hn
  simp [residualTerm, dotProduct]

theorem Reals.binaryPart_shared (R : (shared a).Reals) (c : ℝ) : R.binaryPart (fun _ => c) = a * c := by
  have hobjective : (shared a).problem.binaryObjective (.single c) = .real (a * c) := by
    rw [problem_shared, Problem.binaryObjective_shared]
  have hpenalty : (shared a).problem.equalityPenalty (shared a).params.equalityWeight (.single c) = .real 0 := by
    rw [problem_shared, Problem.equalityPenalty, if_pos (Problem.shared_sizes a).2.2.1, Exact.zero_literal]
  have hconstant : (shared a).problem.constant = .real 0 := by
    rw [problem_shared]
    rfl
  rw [← Vec.ofReal_const_of_eq_one (sizes_shared a).1, R.binaryObjective_ofReal, Exact.real_inj] at hobjective
  rw [← Vec.ofReal_const_of_eq_one (sizes_shared a).1, R.equalityPenalty_ofReal, Exact.real_inj] at hpenalty
  rw [R.constant_eq, Exact.real_inj] at hconstant
  rw [Reals.binaryPart, hobjective, hpenalty, hconstant, add_zero, add_zero]

theorem Reals.continuousValue_shared (R : (shared a).Reals) (v : ℝ) :
    R.continuousValue (fun _ => v) = v * v - v := by
  have hobjective : (shared a).problem.continuousObjective (.single v) = .real (1 * (v * v) + -1 * v) := by
    rw [problem_shared]
    exact Problem.continuousObjective_mixed _ v
  rw [← Vec.ofReal_const_of_eq_one (sizes_shared a).2, R.continuousObjective_ofReal, Exact.real_inj] at hobjective
  rw [hobjective]
  ring

variable {x z s y u ρ : ℝ}

/-- The real vectors of an iterate with shared variables. -/
noncomputable def pointShared (a x z s y u ρ : ℝ) : (shared a).Point (.ofReal ![x] ![z] ![s] ![y] ![u] ρ) :=
  have hconst : ∀ {n : ℕ} (_ : n = 1) (b : ℝ), Vec.ofReal ![b] = Vec.ofReal fun _ : Fin n => b := fun hn b =>
    (Vec.single_eq_ofReal ![b]).symm.trans (Vec.ofReal_const_of_eq_one hn b).symm
  { x := fun _ => x, z := fun _ => z, s := fun _ => s, y := fun _ => y, u := fun _ => u, rho := ρ
    x_eq := hconst (sizes_shared a).1 x
    z_eq := hconst (sizes_shared a).1 z
    s_eq := hconst (sizes_shared a).1 s
    y_eq := hconst (sizes_shared a).1 y
    u_eq := hconst (sizes_shared a).2 u
    rho_eq := rfl }

theorem isMinimiser_qubo_shared {b : ℝ} (hb : b = 0 ∨ b = 1)
    (hleast : ∀ b', b' = 0 ∨ b' = 1 →
      a * b + (y * (b - z - s) + 1 / 2 * ρ * ((b - z - s) * (b - z - s))) ≤
        a * b' + (y * (b' - z - s) + 1 / 2 * ρ * ((b' - z - s) * (b' - z - s)))) :
    ((shared a).qubo (.ofReal ![x] ![z] ![s] ![y] ![u] ρ)).IsMinimiser (.single b) := by
  obtain ⟨R⟩ := exists_reals (create_shared a)
  obtain ⟨hn, -⟩ := sizes_shared a
  let I := pointShared a x z s y u ρ
  have hvalue : ∀ c : ℝ, ((shared a).qubo (.ofReal ![x] ![z] ![s] ![y] ![u] ρ)).value (.single c) =
      .real (a * c + (y * (c - z - s) + 1 / 2 * ρ * ((c - z - s) * (c - z - s)))) := by
    intro c
    rw [← Vec.ofReal_const_of_eq_one hn, R.value_qubo I, R.binaryPart_shared, Exact.real_inj, add_right_inj]
    exact residualTerm_const hn y ρ (c - z - s)
  rw [Qubo.IsMinimiser, Reals.numVariables_qubo R I, hn]
  constructor
  · rw [Vec.single_eq_ofReal fun _ => b]
    exact Vec.isBinary_ofReal fun _ => hb
  · intro w hw
    obtain ⟨f, hf, rfl⟩ := hw.exists_ofReal
    rw [← Vec.single_eq_ofReal, hvalue, hvalue, Exact.real_le_real]
    exact hleast _ (hf 0)

theorem isMinimiser_program_shared {z₀ u₀ : ℝ} (hz : 0 ≤ z ∧ z ≤ 1) (hsum : z + u ≤ 1 / 2) (hu : 0 ≤ u)
    (hleast : ∀ z' u', 0 ≤ z' ∧ z' ≤ 1 → z' + u' ≤ 1 / 2 → 0 ≤ u' →
      u * u - u + (y * (x - z - s) + 1 / 2 * ρ * ((x - z - s) * (x - z - s))) ≤
        u' * u' - u' + (y * (x - z' - s) + 1 / 2 * ρ * ((x - z' - s) * (x - z' - s)))) :
    ((shared a).program (.ofReal ![x] ![z₀] ![s] ![y] ![u₀] ρ)).IsMinimiser (.single z ++ .single u) := by
  obtain ⟨R⟩ := exists_reals (create_shared a)
  obtain ⟨hn, hl⟩ := sizes_shared a
  let I := pointShared a x z₀ s y u₀ ρ
  have hresidual : ∀ c : ℝ, residualTerm I.y I.rho (I.x - (fun _ => c) - I.s) =
      y * (x - c - s) + 1 / 2 * ρ * ((x - c - s) * (x - c - s)) := fun c => residualTerm_const hn y ρ (x - c - s)
  have hblock := (Problem.isBlockFeasible_shared_iff a z u).2 ⟨hz, hsum, hu⟩
  rw [← problem_shared, ← Vec.ofReal_const_of_eq_one hn, ← Vec.ofReal_const_of_eq_one hl] at hblock
  rw [← Vec.ofReal_const_of_eq_one hn, ← Vec.ofReal_const_of_eq_one hl]
  refine R.isMinimiser_joint I (closedForm_shared a) hblock fun z' u' hblock' => ?_
  obtain ⟨c, rfl⟩ := Vec.exists_eq_const_of_eq_one hn z'
  obtain ⟨v, rfl⟩ := Vec.exists_eq_const_of_eq_one hl u'
  rw [Vec.ofReal_const_of_eq_one hn, Vec.ofReal_const_of_eq_one hl, problem_shared] at hblock'
  obtain ⟨hc, hcv, hv⟩ := (Problem.isBlockFeasible_shared_iff a c v).1 hblock'
  rw [R.continuousValue_shared, R.continuousValue_shared, hresidual, hresidual]
  exact hleast c v hc hcv hv

end shared

end Decomposition

/-- One is answered for the binary variable, and what the two other ones share goes to the relaxed copy. -/
theorem Engine.step_lagrangian_shared :
    let p := Problem.shared (-4)
    let e : Engine Exact Unit :=
      { decomposition := .shared (-4)
        oracles.binary := .ofFunction fun _ => .ok (.single 1)
        oracles.continuous := .ofFunction fun _ => .ok (.single (1 / 2) ++ .single 0)
        clock := fun _ => 0.0 }
    let it := Iterate.ofReal ![0] ![0] ![0] ![1] ![0] 2
    Decomposition.create .standard p .standard = .ok e.decomposition ∧
    e.decomposition.checkPass it = .ok () ∧ Scalar.isFinite it.rho = true ∧
    it.x.IsBinary p.numBinary ∧ p.IsBlockFeasible it.z it.u ∧ e.decomposition.closedForm = false ∧
    e.AnswersExactly it () ∧
    ∃ next, (e.step it ()).1 = .ok next ∧
      e.decomposition.lagrangian next.x next.z next.u next.s it.y it.rho ≤
        e.decomposition.lagrangian it.x it.z it.u it.s it.y it.rho ∧
      e.decomposition.lagrangian next.x next.z next.u next.s next.y it.rho =
        e.decomposition.lagrangian next.x next.z next.u next.s it.y it.rho +
          it.rho * ((next.x - next.z - next.s).norm * (next.x - next.z - next.s).norm) := by
  intro p e it
  have hcreate : Decomposition.create .standard p .standard = .ok e.decomposition := Decomposition.create_shared _
  have hcheck : e.decomposition.checkPass it = .ok () := Decomposition.checkPass_mixed _ two_pos
  have hfinite : Scalar.isFinite it.rho = true := Exact.isFinite_iff.2 ⟨2, rfl⟩
  have hbinary : it.x.IsBinary p.numBinary := by
    rw [(Problem.shared_sizes _).1]
    exact Vec.isBinary_ofReal fun i => Or.inl (congrArg ![0] (Subsingleton.elim i 0))
  have hfeasible : p.IsBlockFeasible it.z it.u :=
    (Problem.isBlockFeasible_shared_iff _ 0 0).2 (by norm_num)
  have hexact : e.AnswersExactly it () := by
    refine ⟨⟨.single 1, rfl, Decomposition.isMinimiser_qubo_shared (Or.inr rfl) ?_⟩, ?_⟩
    · rintro b (rfl | rfl)
      · norm_num
      · exact le_rfl
    · intro x hx _
      obtain rfl : .single 1 = x := Except.ok.inj hx
      refine ⟨_, rfl, Decomposition.isMinimiser_program_shared (by norm_num) (by norm_num) le_rfl ?_⟩
      intro z u hz hsum hu
      nlinarith
  exact ⟨hcreate, hcheck, hfinite, hbinary, hfeasible, Decomposition.closedForm_shared _, hexact,
    step_lagrangian hcreate hcheck hfinite hbinary hfeasible hexact⟩

end BinarySplitting
