import Mathlib.Data.Int.Notation
import Mathlib.Tactic.ByContra
import BinarySplitting.Linear.Standard
import BinarySplitting.Proofs.Engine.Calls
import BinarySplitting.Proofs.Problem.Unconstrained
import BinarySplitting.Proofs.Scalar.Machine

/-!
# The history of a run

A result comes with the records of the passes that were made. `Result.IsTold` says how the parts of
a result follow from the records: their number is that of the passes, they are numbered from zero
on, only the last one can meet the stopping test, and it does exactly when the run converged.
Without a time limit this holds of every result, and the oracles were called once for each record
(`Engine.solveAt_isTold`).
-/

namespace BinarySplitting

open Oracles

variable {α σ : Type} [Scalar α]

def Record.Meets (params : Params α) (r : Record α) : Prop :=
  r.primal < params.tolerance ∧ (params.checkDual = true → r.dual < params.dualTolerance)

/-- The history tells the passes of a run, how it ended and why. -/
structure Result.IsTold (params : Params α) (r : Result α) : Prop where
  one_le : 1 ≤ r.history.size
  le_limit : (r.history.size : ℤ) ≤ params.maxIterations
  numbered : ∀ (k : ℕ) (record : Record α), r.history.records[k]? = some record → record.iteration = k
  earlier : ∀ (k : ℕ) (record : Record α), r.history.records[k]? = some record → k + 1 < r.history.size →
    ¬ record.Meets params
  stop_iff : r.stop = .converged ↔
    ∃ record, r.history.records.getLast? = some record ∧ record.Meets params
  limit : r.stop ≠ .converged → r.stop = .iterationLimit ∧ (r.history.size : ℤ) = params.maxIterations
  converged_iff : r.converged = true ↔ r.stop = .converged
  iterations : r.iterations = r.history.size
  frozen : r.history.frozen = true

/-! ## The reasons to stop -/

section stop

variable {params : Params α} {clock : ℕ → α} {it : Iterate α}

theorem Pass.meets_record {p : Pass α} :
    p.record.Meets params ↔ params.isMet p.iterate.measures = true := by
  unfold Record.Meets Params.isMet Pass.record
  cases params.checkDual <;> simp

theorem Params.stop?_converged (h : params.isMet it.measures = true) :
    params.stop? clock it = some .converged :=
  if_pos h

theorem Params.isMet_of_stop?_converged (h : params.stop? clock it = some .converged) :
    params.isMet it.measures = true := by
  by_contra hmet
  unfold stop? at h
  rw [if_neg hmet] at h
  split at h
  · cases h
  · split at h <;> cases h

theorem Params.le_of_stop?_limit (h : params.stop? clock it = some .iterationLimit) :
    params.maxIterations ≤ it.iteration := by
  unfold stop? at h
  split at h
  · cases h
  · split at h
    · assumption
    · split at h <;> cases h

theorem Params.not_isMet_of_stop?_none (h : params.stop? clock it = none) :
    ¬ params.isMet it.measures = true := by
  intro hmet
  rw [stop?_converged hmet] at h
  cases h

theorem Params.not_timeLimit_le [OrderedScalar α] (htime : params.timeLimit = Scalar.infinity)
    (hclock : ∀ n, Scalar.isFinite (clock n) = true) (n : ℕ) : ¬ params.timeLimit ≤ clock n := by
  rw [htime]
  exact OrderedScalar.not_infinity_le _ (hclock n)

theorem Params.stop?_ne_timeLimit [OrderedScalar α] (htime : params.timeLimit = Scalar.infinity)
    (hclock : ∀ n, Scalar.isFinite (clock n) = true) :
    params.stop? clock it ≠ some .timeLimit := by
  intro h
  unfold stop? at h
  split at h
  · cases h
  · split at h
    · cases h
    · split at h
      · next hover => exact not_timeLimit_le htime hclock _ hover
      · cases h

end stop

/-! ## Runs that stopped -/

namespace Engine

variable {e : Engine α σ} {it : Iterate α} {st st' : σ} {passes : List (Pass α)} {stop : Stop}

theorem Makes.getElem?_last (h : e.Makes it st passes (.stopped stop) st') :
    ∃ p, passes[passes.length - 1]? = some p ∧ passes.getLast? = some p ∧
      p.iterate.iteration = it.iteration + passes.length ∧
      e.decomposition.params.stop? e.clock p.iterate = some stop := by
  have hpos := h.length_pos
  have hlast : passes[passes.length - 1]? = some passes[passes.length - 1] :=
    List.getElem?_eq_getElem (by omega)
  refine ⟨_, hlast, ?_, ?_, h.stop?_last hlast⟩
  · rw [List.getLast?_eq_getElem?]
    exact hlast
  · have hiteration := h.iteration hlast
    omega

/-- A run makes no more passes than the limit allows: the last but one left room for another. -/
theorem Makes.length_le (h : e.Makes it st passes (.stopped stop) st') (hit : it.iteration = 0)
    (hlimit : 0 < e.decomposition.params.maxIterations) :
    (passes.length : ℤ) ≤ e.decomposition.params.maxIterations := by
  by_cases hlength : passes.length ≤ 1
  · omega
  · have hbefore : passes[passes.length - 2]? = some passes[passes.length - 2] :=
      List.getElem?_eq_getElem (by omega)
    have hnone := h.stop?_earlier (by omega) hbefore
    have hiteration := h.iteration hbefore
    have hlt := iteration_lt_of_stop?_none hnone
    omega

end Engine

omit [Scalar α] in
theorem Run.size_history (r : Run α) : r.history.size = r.passes.length := by
  simp [Run.history, History.size]

theorem Engine.Makes.isTold [OrderedScalar α] {e : Engine α σ} {run : Run α} {stop : Stop} {st st' : σ}
    (h : e.Makes run.start st run.passes (.stopped stop) st') (hstart : run.start.iteration = 0)
    (hlimit : 0 < e.decomposition.params.maxIterations)
    (htime : e.decomposition.params.timeLimit = Scalar.infinity)
    (hclock : ∀ n, Scalar.isFinite (e.clock n) = true) :
    (run.resultAt e.decomposition stop).IsTold e.decomposition.params := by
  obtain ⟨p, hp, hlast, hiteration, hstop⟩ := h.getElem?_last
  have hpos := h.length_pos
  have hle := h.length_le hstart hlimit
  have hrecords : (run.resultAt e.decomposition stop).history.records = run.passes.map Pass.record := rfl
  have hsize : (run.resultAt e.decomposition stop).history.size = run.passes.length := run.size_history
  refine { one_le := ?_, le_limit := ?_, numbered := ?_, earlier := ?_, stop_iff := ?_, limit := ?_,
           converged_iff := ?_, iterations := rfl, frozen := rfl }
  · rw [hsize]
    exact hpos
  · rw [hsize]
    exact hle
  · intro k record hrecord
    rw [hrecords, List.getElem?_map] at hrecord
    obtain ⟨q, hq, rfl⟩ := Option.map_eq_some_iff.1 hrecord
    have hnumber := h.iteration hq
    show q.iterate.iteration - 1 = k
    omega
  · intro k record hrecord hk
    rw [hsize] at hk
    rw [hrecords, List.getElem?_map] at hrecord
    obtain ⟨q, hq, rfl⟩ := Option.map_eq_some_iff.1 hrecord
    rw [Pass.meets_record]
    exact Params.not_isMet_of_stop?_none (h.stop?_earlier hk hq)
  · rw [hrecords, List.getLast?_map, hlast]
    constructor
    · intro hconverged
      obtain rfl : stop = .converged := hconverged
      exact ⟨p.record, rfl, Pass.meets_record.2 (Params.isMet_of_stop?_converged hstop)⟩
    · rintro ⟨record, hrecord, hmeets⟩
      obtain rfl := Option.some.inj hrecord
      rw [Params.stop?_converged (Pass.meets_record.1 hmeets)] at hstop
      exact (Option.some.inj hstop).symm
  · intro hconverged
    change stop ≠ .converged at hconverged
    cases stop with
    | converged => exact absurd rfl hconverged
    | timeLimit => exact absurd hstop (Params.stop?_ne_timeLimit htime hclock)
    | iterationLimit =>
      have hover := Params.le_of_stop?_limit hstop
      refine ⟨rfl, ?_⟩
      rw [hsize]
      omega
  · exact decide_eq_true_iff

/-- **Without a time limit the history tells the run**, whatever the oracles answer, and each record
stands for one call of the binary oracle and, unless the relaxed copy has a closed form and there is
no continuous variable, one call of the continuous oracle. -/
theorem Engine.solveAt_isTold [OrderedScalar α] {e : Engine α σ} {kernels : Kernels α} {p : Problem α}
    {params : Params α} {start? : Option (Iterate α)} {st st' : σ} {r : Result α}
    (hcreate : Decomposition.create kernels p params = .ok e.decomposition)
    (htime : params.timeLimit = Scalar.infinity) (hclock : ∀ n, Scalar.isFinite (e.clock n) = true)
    (hsolve : e.solveAt start? st = (.ok r, st')) :
    r.IsTold params ∧
      ∃ calls, e.counted.solveAt start? (st, Calls.none) = (.ok r, st', calls) ∧
        calls.binary = r.history.size ∧
        calls.dimensions.length =
          if e.decomposition.closedForm = true ∧ p.numContinuous = 0 then 0 else r.history.size := by
  obtain ⟨-, hvalid, hd⟩ := Decomposition.create_eq_ok_iff.1 hcreate
  have hparams : e.decomposition.params = params := by rw [hd, Decomposition.ofProblem_params]
  have hproblem : e.decomposition.problem = p := by rw [hd, Decomposition.ofProblem_problem]
  rw [← hparams] at hvalid htime
  obtain ⟨run, stop, hrun, hending, rfl⟩ := solveAt_ok hsolve
  obtain ⟨hstart, hmakes⟩ := runAt_makes hvalid hrun
  rw [hending] at hmakes
  have hiteration := Decomposition.startAt_iteration hstart
  obtain ⟨calls, hcounted, hbinary, hcontinuous⟩ := runAt_counted hvalid hrun
  have hsize : (run.resultAt e.decomposition stop).history.size = run.passes.length := run.size_history
  refine ⟨?_, calls, solveAt_of_stopped hcounted hending, ?_, ?_⟩
  · rw [← hparams]
    exact hmakes.isTold hiteration (Params.maxIterations_pos hvalid) htime hclock
  · rw [hbinary, hending, hsize]
    rfl
  · rw [hcontinuous, hending, hsize, ← hproblem]
    by_cases hclosed : e.decomposition.closedForm = true ∧ e.decomposition.problem.numContinuous = 0
    · rw [if_pos hclosed, Decomposition.needsProgram_eq_false_iff.2 hclosed]
      rfl
    · have hneeds := mt Decomposition.needsProgram_eq_false_iff.1 hclosed
      rw [if_neg hclosed, if_pos ((Bool.not_eq_false _).mp hneeds)]
      rfl

/-- Machine numbers: three passes, none of which meets the stopping test. -/
theorem Engine.solveAt_isTold_limit :
    let p : Problem Float := .unconstrained (Mat.ofFn 1 1 fun _ _ => 0.0) ⟨#[-1.0]⟩
    let params : Params Float := { Params.standard with maxIterations := 3 }
    let e := Engine.prepared p params
    let start : Iterate Float := { e.decomposition.initial with y := ⟨#[20000.0]⟩ }
    let answers := [.ok ⟨#[1.0]⟩, .ok ⟨#[1.0]⟩, .ok ⟨#[1.0]⟩]
    Decomposition.create .standard p params = .ok e.decomposition ∧
      params.timeLimit = Scalar.infinity ∧ (∀ n, Scalar.isFinite (e.clock n) = true) ∧
      ∃ r st', e.solveAt (some start) answers = (.ok r, st') ∧ r.history.size = 3 ∧
        r.IsTold params ∧
        ∃ calls, e.counted.solveAt (some start) (answers, .none) = (.ok r, st', calls) ∧
          calls.binary = r.history.size ∧
          calls.dimensions.length =
            if e.decomposition.closedForm = true ∧ p.numContinuous = 0 then 0 else r.history.size := by
  intro p params e start answers
  have hzero : Scalar.isFinite (0.0 : Float) = true := by decide +kernel
  have hrun : (e.solveAt (some start) answers).1.toOption.any (·.history.size == 3) = true := by
    decide +kernel +revert
  have hcreate : Decomposition.create .standard p params = .ok e.decomposition :=
    Decomposition.create_of_isOk (by decide +kernel +revert)
  obtain ⟨r, st', hsolve, hsize⟩ := exists_result hrun
  exact ⟨hcreate, rfl, fun _ => hzero, r, st', hsolve, beq_iff_eq.1 hsize,
    solveAt_isTold hcreate rfl (fun _ => hzero) hsolve⟩

end BinarySplitting
