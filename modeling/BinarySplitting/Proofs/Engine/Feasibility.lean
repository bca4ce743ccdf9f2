import BinarySplitting.Proofs.Engine.History
import BinarySplitting.Proofs.Engine.Shape
import BinarySplitting.Proofs.Problem.Violation

/-!
# What convergence is worth for feasibility

When the oracle for convex programs answers with feasible vectors, the relaxed copy and the continuous
vector are feasible after every pass (`Reals.pass_isBlockFeasible`), in both schedules and with or without
closed form. Where there is no program nothing is asked; then no variable occurs in the rows, so they hold
if they hold for any pair.

The violation is measured at the binary vector instead of the copy, so it is at most that of the equalities
and the change of the rows from one to the other. Without a slack this difference is the residual that the
stopping test looks at, and a converged result misses its constraints by no more than the equalities and
the tolerance times the absolute values of the rows (`Engine.leads_violation_le`).
-/

namespace BinarySplitting

open Matrix

/-- Every vector with which the convex programs of a decomposition are answered is feasible for the
program that was asked. -/
def Oracle.AnswersFeasibly {α σ : Type} [Scalar α] (oracle : Oracle (Program α) α σ)
    (d : Decomposition α) : Prop :=
  ∀ it st w, d.HasVectors it → (oracle (d.program it) st).1 = .ok w → (d.program it).IsFeasible w

/-! ## The pair after a pass -/

namespace Decomposition.Reals

variable {d : Decomposition Exact} {it next updated : Iterate Exact} {σ : Type} {st st' : σ} (R : d.Reals)
  (I : d.Point it)

include R

theorem exists_placed (hρ : 0 < I.rho) (hneeds : d.needsProgram = true) {w : Vec Exact}
    (hw : (d.program it).IsFeasible w) :
    ∃ (z : Fin d.problem.numBinary → ℝ) (u : Fin d.problem.numContinuous → ℝ),
      d.place (d.relax it) w = { it with z := Vec.ofReal z, u := Vec.ofReal u } ∧
        d.problem.IsBlockFeasible (Vec.ofReal z) (Vec.ofReal u) := by
  cases hform : d.closedForm with
  | true =>
    have hl : d.problem.numContinuous ≠ 0 := fun hl =>
      Bool.false_ne_true ((needsProgram_eq_false_iff.2 ⟨hform, hl⟩).symm.trans hneeds)
    obtain ⟨u, rfl⟩ := hw.exists_ofReal (R.dimension_closed hform)
    exact ⟨I.consensus, u, place_closed I hρ hform hl u,
      (R.isBlockFeasible_closed hform _ _).2 ⟨fun i => unitClamp_mem _, hw⟩⟩
  | false =>
    have hrelax : d.relax it = it := by simp [relax, hform]
    obtain ⟨v, rfl⟩ := hw.exists_ofReal (R.dimension_joint hform I)
    obtain ⟨z, u, rfl⟩ : ∃ z u, v = Fin.append z u :=
      ⟨_, _, (Fin.append_castAdd_natAdd (f := v)).symm⟩
    have hblock := (R.isFeasible_joint hform I z u).1 hw
    -- A feasible copy is in the unit box already, so moving it there changes nothing.
    have hunit := ((R.isBlockFeasible_ofReal z u).1 hblock).1
    rw [hrelax]
    exact ⟨z, u, place_joint I hform hunit R.numBinary_pos u, hblock⟩

theorem updateContinuous_isBlockFeasible {oracle : Oracle (Program Exact) Exact σ} (hρ : 0 < I.rho)
    (hblock : d.problem.HasFeasibleBlock) (hanswers : oracle.AnswersFeasibly d)
    (h : d.updateContinuous oracle it st = (.ok updated, st')) :
    d.problem.IsBlockFeasible updated.z updated.u := by
  obtain ⟨hneeds, rfl, -⟩ | ⟨hneeds, w, hanswer, -, -, rfl⟩ := updateContinuous_ok h
  · obtain ⟨hform, hl⟩ := needsProgram_eq_false_iff.1 hneeds
    obtain ⟨z, u, ⟨hz, hzfinite⟩, ⟨hu, hufinite⟩, hfeasible⟩ := hblock
    obtain ⟨z, rfl⟩ := Vec.eq_ofReal hz hzfinite
    obtain ⟨u, rfl⟩ := Vec.eq_ofReal hu hufinite
    have hprogram : (d.program it).IsFeasible (Vec.ofReal u) :=
      ((R.isBlockFeasible_closed hform z u).1 hfeasible).2
    have hempty : IsEmpty (Fin d.problem.numContinuous) := by rw [hl]; infer_instance
    rw [relax_ofReal I hρ hform]
    dsimp only
    rw [I.u_eq, Subsingleton.elim I.u u]
    exact (R.isBlockFeasible_closed hform _ _).2 ⟨fun i => unitClamp_mem _, hprogram⟩
  · rw [program_relax] at hanswer
    have hw := hanswers it st w I.hasVectors (congrArg Prod.fst hanswer)
    obtain ⟨z, u, hplace, hfeasible⟩ := R.exists_placed I hρ hneeds hw
    rw [hplace]
    exact hfeasible

/-- **After a completed pass the copy and the continuous vector are feasible**, if the answers to convex
programs are. -/
theorem pass_isBlockFeasible {oracles : Oracles Exact σ} (hρ : 0 < I.rho)
    (hblock : d.problem.HasFeasibleBlock) (hanswers : oracles.continuous.AnswersFeasibly d)
    (h : d.pass oracles it st = (.ok next, st')) : d.problem.IsBlockFeasible next.z next.u := by
  obtain ⟨x, updated, haccept, hupdate, rfl⟩ := pass_ok h
  obtain ⟨f, -, rfl⟩ := (acceptBinary_isBinary haccept).exists_ofReal
  rw [finish_z, finish_u]
  exact R.updateContinuous_isBlockFeasible (I.setBinary f) hρ hblock hanswers hupdate

end Decomposition.Reals

/-! ## Passes in sequence -/

namespace Engine

variable {σ : Type} {e : Engine Exact σ} {kernels : Kernels Exact} {p : Problem Exact}
  {params : Params Exact} {start it : Iterate Exact} {st st' : σ} {passes : List (Pass Exact)}

theorem Leads.measures (h : e.Leads start st passes it st') (hne : passes ≠ []) :
    it.measures.violation = e.decomposition.problem.violation it.x it.u ∧
      it.measures.primal = (it.x - it.z - it.s).norm := by
  cases h with
  | refl => exact absurd rfl hne
  | snoc _ hpass => exact ⟨Decomposition.pass_violation hpass, Decomposition.pass_primal hpass⟩

theorem Leads.exists_feasible (h : e.Leads start st passes it st')
    (hcreate : Decomposition.create kernels p params = .ok e.decomposition)
    (hstart : e.decomposition.IsStart start) (hne : passes ≠ [])
    (hexact : ∀ p ∈ passes, Scalar.isFinite p.rho = true)
    (hblock : e.decomposition.problem.HasFeasibleBlock)
    (hanswers : e.oracles.continuous.AnswersFeasibly e.decomposition) :
    ∃ (x z s : Fin e.decomposition.problem.numBinary → ℝ)
      (u : Fin e.decomposition.problem.numContinuous → ℝ),
      it.x = Vec.ofReal x ∧ it.z = Vec.ofReal z ∧ it.s = Vec.ofReal s ∧ it.u = Vec.ofReal u ∧
        e.decomposition.problem.IsBlockFeasible (Vec.ofReal z) (Vec.ofReal u) := by
  obtain ⟨R⟩ := Decomposition.exists_reals hcreate
  -- The last pass alone decides this; the passes before it only have to keep the vectors real.
  cases h with
  | refl => exact absurd rfl hne
  | @snoc before it' _ _ _ h hpass =>
    have hbefore : ∀ p ∈ before, Scalar.isFinite p.rho = true := fun p hp =>
      hexact p (List.mem_append_left _ hp)
    have hrho : Scalar.isFinite it'.rho = true := hexact ⟨it'.rho, it⟩ (by simp)
    obtain ⟨I, hρ, ⟨M⟩⟩ := h.exists_moved hcreate hstart hbefore hrho R hpass
    have hfeasible := R.pass_isBlockFeasible I hρ hblock hanswers hpass
    rw [M.z_eq, M.u_eq] at hfeasible
    exact ⟨M.x, M.z, M.s, M.u, M.x_eq, M.z_eq, M.s_eq, M.u_eq, hfeasible⟩

theorem Makes.leads_last {run : Run Exact} {stop : Stop}
    (h : e.Makes run.start st run.passes (.stopped stop) st') :
    e.Leads run.start st run.passes run.last st' ∧ run.passes ≠ [] ∧
      e.decomposition.params.stop? e.clock run.last = some stop := by
  obtain ⟨it, hleads⟩ := h.leads_of_stopped
  obtain ⟨p, -, hlast, -, hstop⟩ := h.getElem?_last
  have hit : run.last = it := hleads.last_eq
  have hp : run.last = p.iterate := by
    rw [Run.last, hlast]
    rfl
  refine ⟨hit ▸ hleads, List.ne_nil_of_length_pos h.length_pos, hp ▸ hstop⟩

/-- **What the constraints are missed by after a pass.** The oracle for convex programs answers with
feasible vectors, the other one with anything. Then after every completed pass from an accepted start the
violation is at most that of the equalities and the change of the rows from the binary vector to its copy.
In the schedule without slack a converged result violates its constraints by at most what the equalities
are missed by and the tolerance times the absolute values of the rows. The penalties of the passes are exact
numbers, that is, finite; they are whenever those of the start and of the parameters are
(`Leads.isFinite_rho`). -/
theorem leads_violation_le (hcreate : Decomposition.create kernels p params = .ok e.decomposition)
    (hblock : p.HasFeasibleBlock)
    (hanswers : e.oracles.continuous.AnswersFeasibly e.decomposition) :
    (∀ start st passes it st', e.decomposition.IsStart start → e.Leads start st passes it st' →
      passes ≠ [] → (∀ pass ∈ passes, Scalar.isFinite pass.rho = true) →
        it.measures.violation ≤ p.equalityViolation it.x + p.rowDrift (it.x - it.z) ∧
        it.x - it.z = (it.x - it.z - it.s) + it.s) ∧
    (params.threeBlock = false → Scalar.isFinite params.tolerance = true →
      ∀ start? st r st', e.solveAt start? st = (.ok r, st') → r.stop = .converged →
        (∀ record ∈ r.history.records, Scalar.isFinite record.rho = true) →
          r.violation ≤ p.equalityViolation r.x + params.tolerance * p.rowWeight) := by
  obtain ⟨R⟩ := Decomposition.exists_reals hcreate
  obtain ⟨hproblem, hparams, haccepted, hvalid⟩ := Decomposition.create_ok hcreate
  subst hproblem hparams
  constructor
  · intro start st passes it st' hstart h hne hexact
    obtain ⟨x, z, s, u, hx, hz, hs, hu, hfeasible⟩ :=
      h.exists_feasible hcreate hstart hne hexact hblock hanswers
    rw [(h.measures hne).1, hx, hz, hs, hu, Vec.ofReal_sub, Vec.ofReal_sub, Vec.ofReal_add, sub_add_cancel]
    exact ⟨R.violation_le hfeasible, rfl⟩
  · intro htwo hfinite start? st r st' hsolve hstop hexact
    obtain ⟨t, ht⟩ := Exact.isFinite_iff.1 hfinite
    obtain ⟨run, stop, hrun, hending, rfl⟩ := solveAt_ok hsolve
    obtain rfl : stop = .converged := hstop
    obtain ⟨hstart, hmakes⟩ := runAt_makes hvalid hrun
    rw [hending] at hmakes
    obtain ⟨hleads, hne, hstopped⟩ := hmakes.leads_last
    obtain ⟨x, z, s, u, hx, hz, hs, hu, hfeasible⟩ :=
      hleads.exists_feasible hcreate (Or.inr ⟨start?, hstart⟩) hne
        (fun p hp => hexact p.record (List.mem_map_of_mem hp)) hblock hanswers
    -- Without a slack the residual is the difference of the binary vector and its copy.
    have hzero : s = 0 := by
      have hshape := hleads.invariant (fun _ _ _ _ hkeep => hkeep.pass)
        (Decomposition.startAt_hasShape haccepted hstart)
      rw [← Vec.ofReal_inj, ← hs, hshape.s_zero htwo, Vec.zero_eq_ofReal]
    have hprimal : run.last.measures.primal < e.decomposition.params.tolerance := by
      have hmet := Params.isMet_of_stop?_converged hstopped
      rw [Params.isMet, Bool.and_eq_true, decide_eq_true_eq] at hmet
      exact hmet.1
    rw [(hleads.measures hne).2, hx, hz, hs, hzero, Vec.ofReal_sub, Vec.ofReal_sub, sub_zero, ht] at hprimal
    show e.decomposition.problem.violation run.last.x run.last.u ≤
      e.decomposition.problem.equalityViolation run.last.x + _
    rw [hx, hu, ht]
    exact R.violation_le_of_near hfeasible (Vec.abs_le_of_norm_lt hprimal)

/-! ## A binary vector that misses a row -/

open Classical in
/-- The oracle that answers with one vector, where it is feasible. -/
noncomputable def onlyFeasible (w : Vec Exact) : Oracle (Program Exact) Exact Unit :=
  .ofFunction fun program =>
    if program.IsFeasible w then .ok w else .error (.reported .infeasible "the vector is not feasible")

theorem onlyFeasible_eq_ok_iff {w v : Vec Exact} {program : Program Exact} {st : Unit} :
    (onlyFeasible w program st).1 = .ok v ↔ program.IsFeasible w ∧ w = v := by
  unfold onlyFeasible Oracle.ofFunction
  dsimp only [pure, StateT.pure]
  split <;> simp [*]

theorem onlyFeasible_answersFeasibly (w : Vec Exact) (d : Decomposition Exact) :
    (onlyFeasible w).AnswersFeasibly d := by
  intro it st v _ hanswer
  obtain ⟨hfeasible, rfl⟩ := onlyFeasible_eq_ok_iff.1 hanswer
  exact hfeasible

/-- One binary variable whose copy may be one half at most. -/
noncomputable def atMostHalf : Problem Exact :=
  { Problem.unconstrained (Mat.ofReal (0 : Matrix (Fin 1) (Fin 1) ℝ)) (Vec.ofReal ![0]) with
    inequalityRows := Mat.ofReal (1 : Matrix (Fin 1) (Fin 1) ℝ)
    inequalityRhs := Vec.ofReal ![0.5] }

theorem atMostHalf_numBinary : atMostHalf.numBinary = 1 := Vec.size_ofReal _

theorem atMostHalf_accepted (spectrum : Mat Exact → Vec Exact) : atMostHalf.Accepted spectrum := by
  refine (Problem.unconstrained_accepted isSymm_zero ![0] one_pos spectrum).withInequalities ?_
    (Mat.allFinite_ofReal _) (Vec.allFinite_ofReal _)
  have hcount : (Problem.unconstrained (Mat.ofReal (0 : Matrix (Fin 1) (Fin 1) ℝ))
      (Vec.ofReal ![0])).numBinary = 1 := Vec.size_ofReal _
  rw [Vec.size_ofReal, hcount]
  exact Or.inr rfl

theorem atMostHalf_isBlockFeasible (u : Vec Exact) : atMostHalf.IsBlockFeasible (Vec.const 1 0.5) u := by
  have hrows : atMostHalf.numInequalities = 1 := Vec.size_ofReal _
  refine ⟨fun i hi => ?_, fun i hi => ?_, nofun, nofun⟩
  · rw [atMostHalf_numBinary] at hi
    rw [Vec.get_const _ hi, Exact.zero_literal, Exact.half_literal, Exact.one_literal,
      Exact.real_le_real, Exact.real_le_real]
    norm_num
  · rw [hrows] at hi
    show (Mat.ofReal (1 : Matrix (Fin 1) (Fin 1) ℝ)).mulVec _ i ≤ Vec.ofReal ![0.5] i
    rw [Exact.half_literal, Vec.const_eq_ofReal, Mat.mulVec_ofReal, one_mulVec, Vec.get_ofReal _ hi,
      Vec.get_ofReal _ hi, Exact.real_le_real]
    norm_num

theorem atMostHalf_hasFeasibleBlock : atMostHalf.HasFeasibleBlock := by
  refine ⟨Vec.const 1 0.5, Vec.empty, ⟨?_, ?_⟩, ⟨rfl, by simp [Vec.allFinite, Vec.empty]⟩,
    atMostHalf_isBlockFeasible _⟩
  · rw [Vec.size_const, atMostHalf_numBinary]
  · rw [Exact.half_literal, Vec.const_eq_ofReal]
    exact Vec.allFinite_ofReal _

/-- An engine for this problem, in the schedule without slack and with one as tolerance, whose oracles
answer one and, where it is feasible, one half. -/
noncomputable def oneAndHalf : Engine Exact Unit where
  decomposition := .ofProblem atMostHalf { Params.standard with threeBlock := false, tolerance := 1.0 }
  oracles.binary := .ofFunction fun _ => .ok (Vec.const 1 1.0)
  oracles.continuous := onlyFeasible (Vec.const 1 0.5)
  clock _ := 0.0

theorem oneAndHalf_create :
    Decomposition.create .standard atMostHalf { Params.standard with threeBlock := false, tolerance := 1.0 } =
      .ok oneAndHalf.decomposition := by
  have hvalid : { (Params.standard : Params Exact) with threeBlock := false, tolerance := 1.0 }.validate = .ok () :=
    Params.validate_ok_iff.2
      { Params.validate_ok_iff.1 Params.standard_validate with tolerance_pos := by simp }
  exact Decomposition.create_eq_ok_iff.2 ⟨atMostHalf_accepted _, hvalid, rfl⟩

theorem oneAndHalf_closedForm : oneAndHalf.decomposition.closedForm = false := by
  have hrows : atMostHalf.numInequalities = 1 := Vec.size_ofReal _
  rw [oneAndHalf, Decomposition.ofProblem_closedForm]
  simp [hrows]

theorem oneAndHalf_pass : ∃ next, oneAndHalf.decomposition.pass oneAndHalf.oracles
    oneAndHalf.decomposition.initial () = (.ok next, ()) ∧ next.measures.primal = .real (1 / 2) := by
  obtain ⟨R⟩ := Decomposition.exists_reals oneAndHalf_create
  obtain ⟨hproblem, hparams, haccepted, -⟩ := Decomposition.create_ok oneAndHalf_create
  have hcount : oneAndHalf.decomposition.problem.numBinary = 1 := by rw [hproblem, atMostHalf_numBinary]
  have hempty : oneAndHalf.decomposition.problem.numContinuous = 0 := by rw [hproblem]; rfl
  obtain ⟨I⟩ := (Decomposition.initial_hasVectors haccepted).exists_point (Exact.isFinite_iff.2 ⟨_, rfl⟩)
  let x : Fin oneAndHalf.decomposition.problem.numBinary → ℝ := fun _ => 1
  let z : Fin oneAndHalf.decomposition.problem.numBinary → ℝ := fun _ => 1 / 2
  let u : Fin oneAndHalf.decomposition.problem.numContinuous → ℝ := fun _ => 0
  have hx : (Vec.const 1 1.0 : Vec Exact) = Vec.ofReal x := by
    rw [← Vec.const_eq_ofReal, hcount, Exact.one_literal]
  have hz : (Vec.const 1 0.5 : Vec Exact) = Vec.ofReal z := by
    rw [← Vec.const_eq_ofReal, hcount, Exact.half_literal]
  have hw : (Vec.const 1 0.5 : Vec Exact) = Vec.ofReal (Fin.append z u) := by
    rw [← Vec.ofReal_append, ← hz, Vec.append_of_size_zero_right _ ((Vec.size_ofReal u).trans hempty)]
  have hbinary : (Vec.ofReal x).IsBinary oneAndHalf.decomposition.problem.numBinary :=
    Vec.isBinary_ofReal fun i => Or.inr rfl
  have haccept : acceptBinary oneAndHalf.decomposition.problem.numBinary
      (oneAndHalf.oracles.binary (oneAndHalf.decomposition.qubo oneAndHalf.decomposition.initial) ()).1 =
        .ok (Vec.ofReal x) := by
    rw [← hx] at hbinary ⊢
    exact acceptBinary_of_snap? hbinary.1 hbinary.snap?_eq
  -- The answer to the convex program is feasible, so it is given and taken over as it is.
  have hblock := atMostHalf_isBlockFeasible (Vec.ofReal u)
  rw [← hproblem, hz] at hblock
  have hfeasible : (oneAndHalf.decomposition.program
      { oneAndHalf.decomposition.initial with x := Vec.ofReal x }).IsFeasible (Vec.ofReal (Fin.append z u)) :=
    (R.isFeasible_joint oneAndHalf_closedForm (I.setBinary x) z u).2 hblock
  have hupdate := R.updateContinuous_joint (I.setBinary x) oneAndHalf_closedForm
    (onlyFeasible_eq_ok_iff.2 ⟨hw ▸ hfeasible, hw⟩ : (oneAndHalf.oracles.continuous _ ()).1 = _) hblock
  refine ⟨_, Decomposition.pass_of_updated haccept (Prod.ext hupdate rfl), ?_⟩
  have htwo : oneAndHalf.decomposition.params.threeBlock = false := by rw [hparams]
  rw [Decomposition.finish_primal, Decomposition.finish_s, htwo, if_neg Bool.false_ne_true]
  show (Vec.ofReal x - Vec.ofReal z - Vec.zero oneAndHalf.decomposition.problem.numBinary).norm = _
  have hsquare : (x - z) ⬝ᵥ (x - z) = (1 / 2) ^ 2 := by
    simp [dotProduct, hcount, x, z]
    norm_num
  rw [Vec.zero_eq_ofReal, Vec.ofReal_sub, Vec.ofReal_sub, sub_zero, Vec.norm_ofReal, hsquare,
    Real.sqrt_sq (by norm_num)]

/-- The first pass meets the stopping test with a residual of one half. -/
theorem leads_violation_le_oneAndHalf :
    let p := atMostHalf
    let params : Params Exact := { Params.standard with threeBlock := false, tolerance := 1.0 }
    let e := oneAndHalf
    let start := e.decomposition.initial
    Decomposition.create .standard p params = .ok e.decomposition ∧ p.HasFeasibleBlock ∧
      e.oracles.continuous.AnswersFeasibly e.decomposition ∧ e.decomposition.IsStart start ∧
      params.threeBlock = false ∧ Scalar.isFinite params.tolerance = true ∧
      ∃ pass it st', e.Leads start () [pass] it st' ∧ Scalar.isFinite pass.rho = true ∧
        it.measures.violation ≤ p.equalityViolation it.x + p.rowDrift (it.x - it.z) ∧
        it.x - it.z = (it.x - it.z - it.s) + it.s ∧
        ∃ r, e.solveAt none () = (.ok r, st') ∧ r.stop = .converged ∧
          (∀ record ∈ r.history.records, Scalar.isFinite record.rho = true) ∧
          r.violation ≤ p.equalityViolation r.x + params.tolerance * p.rowWeight := by
  intro p params e start
  obtain ⟨next, hpass, hprimal⟩ := oneAndHalf_pass
  obtain ⟨-, hparams, -, hvalid⟩ := Decomposition.create_ok oneAndHalf_create
  have hblock : p.HasFeasibleBlock := atMostHalf_hasFeasibleBlock
  have hanswers : e.oracles.continuous.AnswersFeasibly e.decomposition := onlyFeasible_answersFeasibly _ _
  have hfinite : Scalar.isFinite params.tolerance = true := Exact.isFinite_iff.2 ⟨1, Exact.one_literal⟩
  have hrho : Scalar.isFinite start.rho = true := Exact.isFinite_iff.2 ⟨_, rfl⟩
  have hleads : e.Leads start () [⟨start.rho, next⟩] next () := .snoc .refl hpass
  have hmet : e.decomposition.params.isMet next.measures = true := by
    have hless : Exact.real (1 / 2) < 1.0 := by
      rw [Exact.one_literal, Exact.real_lt_real]
      norm_num
    have hdual : params.checkDual = false := rfl
    rw [hparams, Params.isMet, hprimal, hdual, decide_eq_true hless]
    rfl
  have hmakes : e.Makes start () [⟨start.rho, next⟩] (.stopped .converged) () :=
    .stopped hpass (Params.stop?_converged hmet)
  have hsolve : e.solveAt none () = _ := solveAt_of_makes hvalid rfl hmakes
  have hrecords : ∀ record ∈ [(⟨start.rho, next⟩ : Pass Exact)].map Pass.record,
      Scalar.isFinite record.rho = true := by
    intro record hrecord
    obtain rfl := List.mem_singleton.1 hrecord
    exact hrho
  obtain ⟨hpasses, hconverged⟩ := leads_violation_le oneAndHalf_create hblock hanswers
  obtain ⟨hviolation, hsplit⟩ := hpasses start () _ next () (Or.inr ⟨none, rfl⟩) hleads (List.cons_ne_nil _ _)
    (by simpa using hrho)
  exact ⟨oneAndHalf_create, hblock, hanswers, Or.inr ⟨none, rfl⟩, rfl, hfinite, _, next, (), hleads, hrho,
    hviolation, hsplit, _, hsolve, rfl, hrecords,
    hconverged rfl hfinite none () _ () hsolve rfl hrecords⟩

end Engine

end BinarySplitting
