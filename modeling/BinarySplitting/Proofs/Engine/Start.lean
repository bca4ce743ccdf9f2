import BinarySplitting.Proofs.Engine.Trace
import BinarySplitting.Proofs.Params.Admissible
import BinarySplitting.Proofs.Problem.Accepted

/-!
# From a start to a run

A run starts from the standard iterate or from a supplied one. `Engine.runAt` and `Engine.solveAt`
take either, so that what holds of both is said once. An accepted start has made no pass and fits
the problem; an engine with accepted parameters makes from it a run that is a derivation
(`Engine.runAt_makes`), and the only one (`Engine.runAt_of_makes`).
-/

namespace BinarySplitting

variable {α σ : Type} [Scalar α]

theorem Params.maxIterations_pos {params : Params α} (h : params.validate = .ok ()) :
    0 < params.maxIterations :=
  (Params.validate_ok_iff.1 h).maxIterations_pos

/-! ## Accepted starts -/

namespace Decomposition

/-- The vectors of an iterate have the sizes of the problem and finite entries. -/
structure HasVectors (d : Decomposition α) (it : Iterate α) : Prop where
  x : it.x.size = d.problem.numBinary ∧ it.x.allFinite = true
  z : it.z.size = d.problem.numBinary ∧ it.z.allFinite = true
  s : it.s.size = d.problem.numBinary ∧ it.s.allFinite = true
  y : it.y.size = d.problem.numBinary ∧ it.y.allFinite = true
  u : it.u.size = d.problem.numContinuous ∧ it.u.allFinite = true

variable {d : Decomposition α} {it start : Iterate α} {start? : Option (Iterate α)}

theorem checkVector_ok {field : IterateField} {v : Vec α} {n : ℕ} :
    checkVector field v n = .ok () ↔ v.size = n ∧ v.allFinite = true := by
  unfold checkVector
  by_cases hsize : v.size = n
  · rw [if_neg (not_not.2 hsize), check_if_ok]
    exact (and_iff_right hsize).symm
  · rw [if_pos hsize]
    simp [hsize]

theorem checkVectors_ok : d.checkVectors it = .ok () ↔ d.HasVectors it := by
  unfold checkVectors
  simp only [check_seq_ok, checkVector_ok]
  constructor
  · rintro ⟨hx, hz, hs, hy, hu⟩
    exact ⟨hx, hz, hs, hy, hu⟩
  · intro h
    exact ⟨h.x, h.z, h.s, h.y, h.u⟩

theorem checkPass_ok : d.checkPass it = .ok () ↔ d.HasVectors it ∧ 0.0 < it.rho := by
  unfold checkPass
  rw [check_seq_ok, checkVectors_ok]
  exact and_congr_right' check_if_ok

theorem normalize_ok (h : d.normalize it = .ok start) :
    d.HasVectors it ∧ ∃ x, it.x.snap? = some x ∧
      start = { it with
        x
        s := if d.params.threeBlock then it.s else Vec.zero it.s.size
        rho := Scalar.clamp it.rho d.params.rhoMin d.params.rhoMax
        iteration := 0
        status := .initialized } := by
  unfold normalize at h
  cases hvectors : d.checkVectors it with
  | error defect =>
    rw [hvectors] at h
    cases h
  | ok _ =>
    rw [hvectors] at h
    cases hsnap : it.x.snap? with
    | none =>
      rw [hsnap] at h
      cases h
    | some x =>
      rw [hsnap] at h
      exact ⟨checkVectors_ok.1 hvectors, x, rfl, (Except.ok.inj h).symm⟩

/-- The iterate from which a run starts is the supplied one with a binary vector, no slack where there is
none, a penalty within the limits and no pass made. -/
structure IsFormOf (d : Decomposition α) (supplied start : Iterate α) : Prop where
  x : supplied.x.snap? = some start.x
  s : start.s = if d.params.threeBlock then supplied.s else Vec.zero supplied.s.size
  rho : start.rho = Scalar.clamp supplied.rho d.params.rhoMin d.params.rhoMax
  iteration : start.iteration = 0
  kept : start.z = supplied.z ∧ start.u = supplied.u ∧ start.y = supplied.y

theorem isFormOf_of_normalize (h : d.normalize it = .ok start) : d.IsFormOf it start := by
  obtain ⟨-, x, hsnap, rfl⟩ := normalize_ok h
  exact ⟨hsnap, rfl, rfl, rfl, rfl, rfl, rfl⟩

/-- The iterate from which a run starts: the standard one where none is supplied. -/
def startAt (d : Decomposition α) : Option (Iterate α) → Except StartDefect (Iterate α)
  | none => .ok d.initial
  | some it => d.normalize it

theorem startAt_iteration (h : d.startAt start? = .ok start) : start.iteration = 0 := by
  cases start? with
  | none =>
    obtain rfl := Except.ok.inj h
    rfl
  | some it =>
    obtain ⟨-, x, -, rfl⟩ := normalize_ok h
    rfl

theorem initial_size_u {spectrum : Mat α → Vec α} (hp : d.problem.Accepted spectrum) :
    d.initial.u.size = d.problem.numContinuous := by
  unfold initial
  dsimp only
  split
  · simp [Vec.zero]
  · simp [Vec.within, Vec.zero, hp.lower_size, hp.upper_size]

theorem startAt_size_u {spectrum : Mat α → Vec α} (hp : d.problem.Accepted spectrum)
    (h : d.startAt start? = .ok start) : start.u.size = d.problem.numContinuous := by
  cases start? with
  | none =>
    obtain rfl := Except.ok.inj h
    exact initial_size_u hp
  | some it =>
    obtain ⟨hvectors, x, -, rfl⟩ := normalize_ok h
    exact hvectors.u.1

end Decomposition

/-! ## Runs and results -/

namespace Engine

/-- The run from a supplied iterate, or from the standard start where none is supplied. -/
def runAt (e : Engine α σ) : Option (Iterate α) → StateM σ (Except StartDefect (Run α))
  | none => return .ok (← e.runFromStandard)
  | some it => e.runFrom it

/-- The result from a supplied iterate, or from the standard start where none is supplied. -/
def solveAt (e : Engine α σ) : Option (Iterate α) → StateM σ (Except (StepError α) (Result α))
  | none => return (← e.solve).mapError .failed
  | some it => e.solveFrom it

variable {e : Engine α σ} {start? : Option (Iterate α)} {start : Iterate α} {st st' : σ}

theorem runAt_of_refused {defect : StartDefect} (h : e.decomposition.startAt start? = .error defect) :
    e.runAt start? st = (.error defect, st) := by
  cases start? with
  | none => cases h
  | some it =>
    change e.decomposition.normalize it = _ at h
    unfold runAt runFrom
    dsimp only
    rw [h]
    rfl

theorem runAt_of_start (h : e.decomposition.startAt start? = .ok start) :
    e.runAt start? st = (.ok (e.run start st).1, (e.run start st).2) := by
  cases start? with
  | none =>
    obtain rfl := Except.ok.inj h
    rfl
  | some it =>
    change e.decomposition.normalize it = _ at h
    unfold runAt runFrom
    dsimp only
    rw [h]
    rfl

theorem solveAt_of_refused {defect : StartDefect}
    (h : e.decomposition.startAt start? = .error defect) :
    e.solveAt start? st = (.error (.start defect), st) := by
  cases start? with
  | none => cases h
  | some it =>
    have hrun : e.runAt (some it) st = _ := runAt_of_refused h
    change e.runFrom it st = _ at hrun
    unfold solveAt solveFrom
    dsimp only
    rw [runState_bind, hrun]
    rfl

theorem solveAt_of_start (h : e.decomposition.startAt start? = .ok start) :
    e.solveAt start? st =
      (((e.run start st).1.result e.decomposition).mapError .failed, (e.run start st).2) := by
  cases start? with
  | none =>
    obtain rfl := Except.ok.inj h
    rfl
  | some it =>
    have hrun : e.runAt (some it) st = _ := runAt_of_start h
    change e.runFrom it st = _ at hrun
    unfold solveAt solveFrom
    dsimp only
    rw [runState_bind, hrun]
    rfl

theorem solveAt_ok {r : Result α} (h : e.solveAt start? st = (.ok r, st')) :
    ∃ run stop, e.runAt start? st = (.ok run, st') ∧ run.ending = .stopped stop ∧
      r = run.resultAt e.decomposition stop := by
  cases hstart : e.decomposition.startAt start? with
  | error defect =>
    rw [solveAt_of_refused hstart] at h
    cases h
  | ok start =>
    rw [solveAt_of_start hstart] at h
    obtain ⟨hresult, hst⟩ := Prod.mk.inj h
    refine ⟨(e.run start st).1, ?_⟩
    rw [runAt_of_start hstart, hst]
    unfold Run.result at hresult
    cases hending : (e.run start st).1.ending with
    | failed failure =>
      rw [hending] at hresult
      cases hresult
    | stopped stop =>
      rw [hending] at hresult
      exact ⟨stop, rfl, rfl, (Except.ok.inj hresult).symm⟩

theorem solveAt_of_stopped {run : Run α} {stop : Stop}
    (hrun : e.runAt start? st = (.ok run, st')) (hending : run.ending = .stopped stop) :
    e.solveAt start? st = (.ok (run.resultAt e.decomposition stop), st') := by
  cases hstart : e.decomposition.startAt start? with
  | error defect =>
    rw [runAt_of_refused hstart] at hrun
    cases hrun
  | ok start =>
    rw [runAt_of_start hstart] at hrun
    obtain ⟨hrun, hst⟩ := Prod.mk.inj hrun
    obtain rfl := Except.ok.inj hrun
    rw [solveAt_of_start hstart, hst, Run.result, hending]
    rfl

theorem run_makes (hparams : e.decomposition.params.validate = .ok ())
    (hstart : start.iteration = 0) :
    e.Makes start st (e.run start st).1.passes (e.run start st).1.ending (e.run start st).2 := by
  have hpos := Params.maxIterations_pos hparams
  exact passes_makes (by omega) (by omega)

theorem runAt_makes {run : Run α} (hparams : e.decomposition.params.validate = .ok ())
    (h : e.runAt start? st = (.ok run, st')) :
    e.decomposition.startAt start? = .ok run.start ∧
      e.Makes run.start st run.passes run.ending st' := by
  cases hstart : e.decomposition.startAt start? with
  | error defect =>
    rw [runAt_of_refused hstart] at h
    cases h
  | ok start =>
    rw [runAt_of_start hstart] at h
    obtain ⟨hrun, hst⟩ := Prod.mk.inj h
    obtain rfl := Except.ok.inj hrun
    rw [← hst]
    exact ⟨rfl, run_makes hparams (Decomposition.startAt_iteration hstart)⟩

theorem runAt_of_makes {passes : List (Pass α)} {ending : Ending α}
    (hparams : e.decomposition.params.validate = .ok ())
    (hstart : e.decomposition.startAt start? = .ok start)
    (h : e.Makes start st passes ending st') :
    e.runAt start? st = (.ok ⟨start, passes, ending⟩, st') := by
  have hrun : e.Makes start st _ _ _ := run_makes hparams (Decomposition.startAt_iteration hstart)
  obtain ⟨hpasses, hending, hst⟩ := h.unique hrun
  rw [runAt_of_start hstart, hpasses, hending, hst]
  rfl

theorem solveAt_of_makes {passes : List (Pass α)} {ending : Ending α}
    (hparams : e.decomposition.params.validate = .ok ())
    (hstart : e.decomposition.startAt start? = .ok start)
    (h : e.Makes start st passes ending st') :
    e.solveAt start? st =
      (((⟨start, passes, ending⟩ : Run α).result e.decomposition).mapError .failed, st') := by
  have hrun : e.Makes start st _ _ _ := run_makes hparams (Decomposition.startAt_iteration hstart)
  obtain ⟨hpasses, hending, hst⟩ := h.unique hrun
  rw [solveAt_of_start hstart, hpasses, hending, hst]
  rfl

/-! ## A single pass -/

theorem step_of_accepted {it : Iterate α} (h : e.decomposition.checkPass it = .ok ()) :
    e.step it st = ((e.decomposition.pass e.oracles it st).1.mapError .failed,
      (e.decomposition.pass e.oracles it st).2) := by
  unfold step
  rw [h]
  rfl

/-! ## Prepared answers -/

/-- An engine whose oracles give prepared answers, one after another, and whose clock stands still. -/
def prepared (p : Problem α) (params : Params α) :
    Engine α (List (Except (SolverFailure α) (Vec α))) where
  decomposition := .ofProblem p params
  oracles.binary := .playback (.reported .failed "no answer is left")
  oracles.continuous := .playback (.reported .failed "no answer is left")
  clock _ := 0.0

theorem exists_start (h : (e.decomposition.startAt start?).toOption.isSome = true) :
    ∃ start, e.decomposition.startAt start? = .ok start := by
  cases hstart : e.decomposition.startAt start? with
  | error defect =>
    rw [hstart] at h
    cases h
  | ok start => exact ⟨start, rfl⟩

theorem exists_result {check : Result α → Bool}
    (h : (e.solveAt start? st).1.toOption.any check = true) :
    ∃ r st', e.solveAt start? st = (.ok r, st') ∧ check r = true := by
  rcases hsolve : e.solveAt start? st with ⟨_ | r, st'⟩
  · rw [hsolve] at h
    cases h
  · rw [hsolve] at h
    exact ⟨r, st', rfl, h⟩

end Engine

end BinarySplitting
