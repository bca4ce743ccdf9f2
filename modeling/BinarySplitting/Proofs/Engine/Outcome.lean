import BinarySplitting.Proofs.Engine.Answers
import BinarySplitting.Proofs.Engine.Chain
import BinarySplitting.Proofs.Engine.History

/-!
# What a solve comes to

From an accepted start a solve returns a result or fails in one of its passes, whatever the oracles
answer, and there is no third outcome (`Engine.solveAt_returns_or_fails`).

A result stands for passes in which no answer was faulty; its records were all taken and its iterate
was final (`Engine.Returns`). A failure carries the number of the passes completed before it, none of
which met the stopping test, and names the block whose answer was refused in the next one
(`Engine.FailsAfter`).
-/

namespace BinarySplitting

open Oracles

variable {α σ : Type} [Scalar α]

namespace Engine

/-- A result: no answer of its passes is faulty, its records are taken one after another, and it is
assembled from a final iterate. -/
structure Returns (e : Engine α σ) (start : Iterate α) (st : σ) (r : Result α) : Prop where
  answers : ∀ (passes : List (Pass α)) (it : Iterate α) (st₁ : σ), e.Leads start st passes it st₁ →
    passes.length < r.history.size → ¬ e.RefusesBinary it st₁ ∧ ¬ e.RefusesContinuous it st₁
  assembled : ∃ it history result, History.empty.recordAll r.history.records = .ok history ∧
    Result.assemble e.decomposition.problem e.decomposition.params it history = .ok result ∧
    r = { result with finalRho := r.finalRho }

/-- The failure of a run in the pass after the given ones, which lead to `it` and `st`. -/
structure FailsAfter (e : Engine α σ) (passes : List (Pass α)) (it : Iterate α) (st : σ)
    (failure : SubproblemFailure α) : Prop where
  iteration : failure.iteration = passes.length
  lt_limit : failure.iteration < e.decomposition.params.maxIterations
  not_met : ∀ p ∈ passes, ¬ p.record.Meets e.decomposition.params
  binary_iff : failure.block = .binary ↔ e.RefusesBinary it st
  binary_kind : failure.block = .binary → failure.kind = refusalKind (e.binaryAnswer it st)
  binary_calls : failure.block = .binary → ∀ calls, ∃ st',
    e.decomposition.pass e.oracles.counted it (st, calls) =
      (.error failure, st', ⟨calls.binary + 1, calls.dimensions⟩)
  continuous_iff : failure.block = .continuous ↔
    ¬ e.RefusesBinary it st ∧ e.RefusesContinuous it st
  continuous_kind : failure.block = .continuous → ∀ x,
    acceptBinary e.decomposition.problem.numBinary (e.binaryAnswer it st) = .ok x →
      failure.kind = refusalKind (e.continuousAnswer it st x)

variable {e : Engine α σ} {start it : Iterate α} {st st₁ st' : σ} {passes : List (Pass α)}

theorem Leads.returns {run : Run α} {stop : Stop} (h : e.Leads start st run.passes it st') :
    e.Returns start st (run.resultAt e.decomposition stop) where
  answers := by
    intro passes it' st₁ hleads hlength
    have hsize : (run.resultAt e.decomposition stop).history.size = run.passes.length :=
      run.size_history
    obtain ⟨next, st₂, hpass⟩ := h.pass_of_length_lt hleads (hsize ▸ hlength)
    exact pass_not_refused hpass
  assembled := by
    refine ⟨{ run.selected stop with status := .stopped stop }, run.history, _, ?_, rfl, rfl⟩
    exact History.recordAll_of_not_frozen _ _ rfl

theorem Leads.lt_limit (h : e.Leads start st passes it st₁) (hstart : start.iteration = 0)
    (hlimit : 0 < e.decomposition.params.maxIterations)
    (hnone : ∀ p ∈ passes, e.decomposition.params.stop? e.clock p.iterate = none) :
    it.iteration < e.decomposition.params.maxIterations := by
  -- Either no pass was made yet, or the last one did not reach the limit.
  cases h with
  | refl => omega
  | @snoc _ before _ _ _ _ _ => exact iteration_lt_of_stop?_none (hnone ⟨before.rho, it⟩ (by simp))

theorem Leads.failsAfter {failure : SubproblemFailure α} (h : e.Leads start st passes it st₁)
    (hstart : start.iteration = 0) (hlimit : 0 < e.decomposition.params.maxIterations)
    (hnone : ∀ p ∈ passes, e.decomposition.params.stop? e.clock p.iterate = none)
    (hpass : e.decomposition.pass e.oracles it st₁ = (.error failure, st')) :
    e.FailsAfter passes it st₁ failure := by
  have hiteration : failure.iteration = it.iteration := by
    obtain ⟨fault, -, rfl, -⟩ | ⟨x, fault, -, -, rfl⟩ := Decomposition.pass_error hpass
    · rfl
    · rfl
  have hnumber := h.iteration
  have hlt := h.lt_limit hstart hlimit hnone
  have hmet : ∀ p ∈ passes, ¬ p.record.Meets e.decomposition.params := fun p hp => by
    rw [Pass.meets_record]
    exact Params.not_isMet_of_stop?_none (hnone p hp)
  have hcalls : failure.block = .binary → ∀ calls, ∃ st',
      e.decomposition.pass e.oracles.counted it (st₁, calls) =
        (.error failure, st', ⟨calls.binary + 1, calls.dimensions⟩) := by
    intro hblock calls
    obtain ⟨dimensions, hlength, hcounted⟩ := Decomposition.pass_error_counted calls hpass
    rw [hblock, if_neg (by simp)] at hlength
    rw [List.length_eq_zero_iff.1 hlength, List.append_nil] at hcounted
    exact ⟨st', hcounted⟩
  obtain ⟨hblock, hbinary, hkind⟩ | ⟨hblock, hcontinuous, hkind⟩ := pass_refused hpass
  · refine ⟨by omega, by omega, hmet, iff_of_true hblock hbinary, fun _ => hkind, hcalls, ?_, ?_⟩
    · exact iff_of_false (by simp [hblock]) fun hboth => hboth.1 hbinary
    · exact fun hother => absurd (hblock.symm.trans hother) (by simp)
  · have hnot := hcontinuous.not_refusesBinary
    refine ⟨by omega, by omega, hmet, iff_of_false (by simp [hblock]) hnot, ?_, hcalls,
      iff_of_true hblock ⟨hnot, hcontinuous⟩, fun _ => hkind⟩
    exact fun hother => absurd (hblock.symm.trans hother) (by simp)

/-- **From an accepted start a solve returns a result or fails in a pass**, whatever the oracles
answer. The passes before the failed one are completed and do not meet the stopping test. -/
theorem solveAt_returns_or_fails {kernels : Kernels α} {p : Problem α} {params : Params α}
    {start? : Option (Iterate α)} (st : σ)
    (hcreate : Decomposition.create kernels p params = .ok e.decomposition)
    (hstart : e.decomposition.startAt start? = .ok start) :
    (∃ r st', e.solveAt start? st = (.ok r, st') ∧ e.Returns start st r) ∨
      ∃ failure st', e.solveAt start? st = (.error (.failed failure), st') ∧
        ∃ passes it st₁, e.Leads start st passes it st₁ ∧ e.FailsAfter passes it st₁ failure := by
  obtain ⟨-, -, -, hvalid⟩ := Decomposition.create_ok hcreate
  have hzero := Decomposition.startAt_iteration hstart
  have hmakes : e.Makes start st _ _ _ := run_makes hvalid hzero
  rw [solveAt_of_start hstart, Run.result]
  cases hending : (e.run start st).1.ending with
  | stopped stop =>
    rw [hending] at hmakes
    obtain ⟨it, hleads⟩ := hmakes.leads_of_stopped
    exact Or.inl ⟨_, _, rfl, hleads.returns⟩
  | failed failure =>
    rw [hending] at hmakes
    obtain ⟨it, st₁, hleads, hpass, hnone⟩ := hmakes.leads_of_failed
    exact Or.inr ⟨failure, _, rfl, _, it, st₁, hleads,
      hleads.failsAfter hzero (Params.maxIterations_pos hvalid) hnone hpass⟩

/-- Machine numbers: the second pass of a run from an iterate numbered seven fails, because an entry
of the answer to the convex program is infinite. -/
theorem solveAt_returns_or_fails_infinite :
    let p : Problem Float :=
      { Problem.unconstrained (Mat.ofFn 1 1 fun _ _ => 0.0) ⟨#[-1.0]⟩ with
        continuousQuadratic := Mat.ofFn 1 1 fun _ _ => 1.0
        continuousLinear := ⟨#[0.0]⟩
        lower := ⟨#[0.0]⟩
        upper := ⟨#[Scalar.infinity]⟩ }
    let e := Engine.prepared p .standard
    let supplied : Iterate Float := { e.decomposition.initial with y := ⟨#[20000.0]⟩, iteration := 7 }
    let answers := [.ok ⟨#[1.0]⟩, .ok ⟨#[0.5]⟩, .ok ⟨#[1.0]⟩, .ok ⟨#[Scalar.infinity]⟩]
    Decomposition.create .standard p .standard = .ok e.decomposition ∧
      ∃ start failure st', e.decomposition.startAt (some supplied) = .ok start ∧
        e.solveAt (some supplied) answers = (.error (.failed failure), st') ∧
        failure.iteration = 1 ∧ failure.block = .continuous ∧ failure.kind = .failed ∧
        ∃ passes it st₁, e.Leads start answers passes it st₁ ∧ e.FailsAfter passes it st₁ failure := by
  intro p e supplied answers
  have hstart : (e.decomposition.startAt (some supplied)).toOption.isSome = true := by
    decide +kernel
  have hfailure : (match (e.solveAt (some supplied) answers).1 with
      | .error (.failed failure) => decide (failure.iteration = 1) &&
          decide (failure.block = .continuous) && decide (failure.kind = .failed)
      | _ => false) = true := by
    decide +kernel
  have hcreate : Decomposition.create .standard p .standard = .ok e.decomposition :=
    Decomposition.create_of_isOk (by decide +kernel)
  cases haccept : e.decomposition.startAt (some supplied) with
  | error defect =>
    rw [haccept] at hstart
    cases hstart
  | ok start =>
    obtain ⟨r, st', hsolve, -⟩ | ⟨failure, st', hsolve, hfails⟩ :=
      solveAt_returns_or_fails answers hcreate haccept
    · rw [hsolve] at hfailure
      cases hfailure
    · rw [hsolve] at hfailure
      simp only [Bool.and_eq_true, decide_eq_true_eq] at hfailure
      exact ⟨hcreate, start, failure, st', rfl, hsolve, hfailure.1.1, hfailure.1.2, hfailure.2, hfails⟩

end Engine

end BinarySplitting
