import BinarySplitting.Proofs.Engine.Agreement
import BinarySplitting.Proofs.Engine.History
import BinarySplitting.Proofs.Engine.Shape

/-!
# A solve is a sequence of single steps

A caller can make the passes of a run one by one with `Engine.step`. That checks the iterate before every
pass, while a run checks only what it is started from, and a run brings its start into form, while a step
takes the iterate as it is. `Engine.Steps e start k it` says that `k` single steps lead from `start` to
`it`.

In exact arithmetic no iterate of this sequence is rejected (`Steps.checkPass`), so the passes of a run
are its steps (`Leads.steps`), cut where the first one gives a reason to stop. With oracles whose answers
depend on nothing but the subproblem and without a time limit, the sequence decides what a solve comes to
(`Engine.solveFrom_eq_steps`).
-/

namespace BinarySplitting

variable {α σ : Type} [Scalar α]

theorem Run.result_eq_error_iff {run : Run α} {d : Decomposition α} {failure : SubproblemFailure α} :
    (run.result d).mapError StepError.failed = .error (.failed failure) ↔
      run.ending = .failed failure := by
  unfold Run.result
  cases run.ending <;> simp [Except.mapError]

namespace Engine

/-- After `k` single steps from `start`, in any states of the oracles, the iterate is `it`. -/
inductive Steps (e : Engine α σ) (start : Iterate α) : ℕ → Iterate α → Prop
  | refl : Steps e start 0 start
  | snoc {k : ℕ} {it next : Iterate α} {st : σ} (h : Steps e start k it)
      (hstep : (e.step it st).1 = .ok next) : Steps e start (k + 1) next

/-- After `k` steps a run stops: the stopping test is met or the steps are used up. -/
def StopsAt (e : Engine α σ) (k : ℕ) (it : Iterate α) : Prop :=
  e.decomposition.params.isMet it.measures = true ∨ e.decomposition.params.maxIterations ≤ k

/-- A step before the first stop fails. -/
def FailsStepping (e : Engine α σ) (start : Iterate α) (failure : SubproblemFailure α) : Prop :=
  ∃ k it st, e.Steps start k it ∧
    (∀ j before, 0 < j → j ≤ k → e.Steps start j before → ¬ e.StopsAt j before) ∧
    (e.step it st).1 = .error (.failed failure)

/-- The records are those of the steps up to the first stop. -/
structure TellsSteps (e : Engine α σ) (start : Iterate α) (records : List (Record α)) : Prop where
  ne_nil : records ≠ []
  record : ∀ (k : ℕ) (r : Record α), records[k]? = some r → ∃ it next st, e.Steps start k it ∧
    (e.step it st).1 = .ok next ∧
    r = { iteration := k
          primal := next.measures.primal
          dual := next.measures.dual
          rho := it.rho
          objective := next.measures.objective
          violation := next.measures.violation
          merit := next.measures.merit } ∧
    (k + 1 = records.length ↔ e.StopsAt (k + 1) next)

/-- What the steps from `start` say of the solve from a supplied iterate. -/
structure SolvesBySteps (e : Engine α σ) (supplied start : Iterate α) (st : σ) : Prop where
  accepted : ∀ k it st₁ defect, e.Steps start k it → (e.step it st₁).1 ≠ .error (.start defect)
  failed_iff : ∀ failure, (e.solveFrom supplied st).1 = .error (.failed failure) ↔
    e.FailsStepping start failure
  history : (∀ failure, ¬ e.FailsStepping start failure) →
    ∃ r, (e.solveFrom supplied st).1 = .ok r ∧ e.TellsSteps start r.history.records

variable {e : Engine α σ} {start it next : Iterate α} {st st₁ st' : σ} {passes : List (Pass α)} {k : ℕ}

/-! ## A step is a pass -/

theorem step_eq (e : Engine α σ) (it : Iterate α) (st : σ) :
    (e.step it st).1 = ((e.decomposition.checkPass it).mapError .start).bind fun _ =>
      (e.decomposition.pass e.oracles it st).1.mapError .failed := by
  unfold step
  cases e.decomposition.checkPass it <;> rfl

theorem step_eq_ok_iff : (e.step it st).1 = .ok next ↔
    e.decomposition.checkPass it = .ok () ∧ (e.decomposition.pass e.oracles it st).1 = .ok next := by
  rw [step_eq]
  cases e.decomposition.checkPass it <;> cases (e.decomposition.pass e.oracles it st).1 <;>
    simp [Except.mapError, Except.bind]

theorem step_eq_failed_iff {failure : SubproblemFailure α} :
    (e.step it st).1 = .error (.failed failure) ↔
      e.decomposition.checkPass it = .ok () ∧
        (e.decomposition.pass e.oracles it st).1 = .error failure := by
  rw [step_eq]
  cases e.decomposition.checkPass it <;> cases (e.decomposition.pass e.oracles it st).1 <;>
    simp [Except.mapError, Except.bind]

theorem step_ne_rejected {defect : StartDefect} (h : e.decomposition.checkPass it = .ok ()) :
    (e.step it st).1 ≠ .error (.start defect) := by
  rw [step_eq, h]
  cases (e.decomposition.pass e.oracles it st).1 <;> simp [Except.mapError, Except.bind]

theorem Steps.iteration (h : e.Steps start k it) : it.iteration = start.iteration + k := by
  induction h with
  | refl => simp
  | snoc _ hstep ih =>
    have hpass := Decomposition.pass_iteration (Prod.ext (step_eq_ok_iff.1 hstep).2 rfl)
    omega

theorem Steps.unique {it' : Iterate α} (hfun : e.oracles.AreFunctions) (h : e.Steps start k it)
    (h' : e.Steps start k it') : it = it' := by
  induction h generalizing it' with
  | refl =>
    cases h'
    rfl
  | @snoc _ before _ st _ hstep ih =>
    cases h' with
    | @snoc _ _ _ st' h' hstep' =>
      obtain rfl := ih h'
      have hpass := (step_eq_ok_iff.1 hstep).2
      rw [pass_eq_of_areFunctions hfun before st st', (step_eq_ok_iff.1 hstep').2] at hpass
      exact (Except.ok.inj hpass).symm

/-- Steps are passes in sequence, each from an iterate of the steps to the next one. -/
theorem Steps.exists_leads (hfun : e.oracles.AreFunctions) (h : e.Steps start k it) (st : σ) :
    ∃ passes st', e.Leads start st passes it st' ∧ passes.length = k ∧
      ∀ p ∈ passes, ∃ j before, j < k ∧ e.Steps start j before ∧ p.rho = before.rho ∧
        e.Steps start (j + 1) p.iterate := by
  induction h with
  | refl => exact ⟨[], st, .refl, rfl, by simp⟩
  | @snoc k before next st₀ h hstep ih =>
    obtain ⟨passes, st₁, hleads, hlength, hpasses⟩ := ih
    have hpass := (step_eq_ok_iff.1 hstep).2
    rw [pass_eq_of_areFunctions hfun before st₀ st₁] at hpass
    refine ⟨_, _, .snoc hleads (Prod.ext hpass rfl), by simp [hlength], ?_⟩
    intro p hp
    rcases List.mem_append.1 hp with hp | hp
    · obtain ⟨j, it', hj, hbefore, hrho, hnext⟩ := hpasses p hp
      exact ⟨j, it', by omega, hbefore, hrho, hnext⟩
    · obtain rfl := List.mem_singleton.1 hp
      exact ⟨k, before, by omega, h, rfl, .snoc h hstep⟩

theorem Leads.steps (h : e.Leads start st passes it st')
    (haccept : ∀ k it, e.Steps start k it → e.decomposition.checkPass it = .ok ()) :
    e.Steps start passes.length it := by
  induction h with
  | refl => exact .refl
  | snoc _ hpass ih =>
    rw [List.length_append, List.length_singleton]
    exact .snoc ih (step_eq_ok_iff.2 ⟨haccept _ _ ih, congrArg Prod.fst hpass⟩)

/-! ## Where a run stops -/

theorem stop?_eq_none_iff [OrderedScalar α]
    (htime : e.decomposition.params.timeLimit = Scalar.infinity)
    (hclock : ∀ n, Scalar.isFinite (e.clock n) = true) (hit : it.iteration = k) :
    e.decomposition.params.stop? e.clock it = none ↔ ¬ e.StopsAt k it := by
  constructor
  · rintro hnone (hmet | hlimit)
    · exact Params.not_isMet_of_stop?_none hnone hmet
    · have hlt := iteration_lt_of_stop?_none hnone
      omega
  · intro hstops
    cases hstop : e.decomposition.params.stop? e.clock it with
    | none => rfl
    | some stop =>
      exfalso
      apply hstops
      cases stop with
      | converged => exact Or.inl (Params.isMet_of_stop?_converged hstop)
      | iterationLimit => exact Or.inr (hit ▸ Params.le_of_stop?_limit hstop)
      | timeLimit => exact absurd hstop (Params.stop?_ne_timeLimit htime hclock)

section run

variable [OrderedScalar α] (htime : e.decomposition.params.timeLimit = Scalar.infinity)
  (hclock : ∀ n, Scalar.isFinite (e.clock n) = true)
  (haccept : ∀ k it, e.Steps start k it → e.decomposition.checkPass it = .ok ())
  (hstart : start.iteration = 0)

include htime hclock haccept hstart

theorem Makes.tellsSteps {stop : Stop} (h : e.Makes start st passes (.stopped stop) st') :
    e.TellsSteps start (passes.map Pass.record) := by
  refine ⟨?_, ?_⟩
  · have hpos := h.length_pos
    exact List.ne_nil_of_length_pos (by simpa using hpos)
  · intro k r hr
    rw [List.getElem?_map] at hr
    obtain ⟨p, hp, rfl⟩ := Option.map_eq_some_iff.1 hr
    have hk : k < passes.length := (List.getElem?_eq_some_iff.1 hp).1
    obtain ⟨before, st₁, st₂, hleads, hpass, hrho⟩ := h.exists_before hp
    have hsteps := hleads.steps haccept
    rw [List.length_take_of_le hk.le] at hsteps
    have hnumber := h.iteration hp
    have hstep := step_eq_ok_iff.2 ⟨haccept _ _ hsteps, congrArg Prod.fst hpass⟩
    refine ⟨before, p.iterate, st₁, hsteps, hstep, ?_, ?_⟩
    · simp only [Pass.record, hrho, Record.mk.injEq, and_true]
      omega
    · have hnumber' : p.iterate.iteration = (k + 1 : ℕ) := by omega
      have hnone := stop?_eq_none_iff htime hclock hnumber'
      rw [List.length_map]
      constructor
      · intro hlast
        have hstop := h.stop?_last (p := p) (by rw [← hlast]; exact hp)
        by_contra hnot
        rw [hnone.2 hnot] at hstop
        cases hstop
      · intro hstops
        by_contra hlast
        exact hnone.1 (h.stop?_earlier (by omega) hp) hstops

theorem Makes.failsStepping {failure : SubproblemFailure α} (hfun : e.oracles.AreFunctions)
    (h : e.Makes start st passes (.failed failure) st') : e.FailsStepping start failure := by
  obtain ⟨it, st₁, hleads, hpass, hnone⟩ := h.leads_of_failed
  have hsteps := hleads.steps haccept
  refine ⟨passes.length, it, st₁, hsteps, ?_,
    step_eq_failed_iff.2 ⟨haccept _ _ hsteps, congrArg Prod.fst hpass⟩⟩
  intro j jt hpos hj hjt
  obtain ⟨i, rfl⟩ := Nat.exists_eq_add_one.2 hpos
  -- The iterate after `i + 1` steps is that of the pass with index `i`, which gave no reason to stop.
  have hi : passes[i]? = some passes[i] := List.getElem?_eq_getElem (by omega)
  obtain ⟨before, st₂, st₃, hleads', hpass', -⟩ := h.exists_before hi
  have hbefore := hleads'.steps haccept
  rw [List.length_take_of_le (by omega)] at hbefore
  have hstep := step_eq_ok_iff.2 ⟨haccept _ _ hbefore, congrArg Prod.fst hpass'⟩
  obtain rfl := hjt.unique hfun (hbefore.snoc hstep)
  exact (stop?_eq_none_iff htime hclock (by rw [hjt.iteration, hstart, zero_add])).1
    (hnone _ (List.getElem_mem _))

omit haccept in
theorem FailsStepping.makes {failure : SubproblemFailure α} (hfun : e.oracles.AreFunctions)
    (h : e.FailsStepping start failure) (st : σ) :
    ∃ passes st', e.Makes start st passes (.failed failure) st' := by
  obtain ⟨k, it, st₀, hsteps, hbefore, hstep⟩ := h
  obtain ⟨passes, st₁, hleads, hlength, hpasses⟩ := hsteps.exists_leads hfun st
  have hpass := (step_eq_failed_iff.1 hstep).2
  rw [pass_eq_of_areFunctions hfun it st₀ st₁] at hpass
  refine ⟨_, _, hleads.makes ?_ (.failed (Prod.ext hpass rfl))⟩
  intro p hp
  obtain ⟨j, before, hj, -, -, hnext⟩ := hpasses p hp
  rw [stop?_eq_none_iff htime hclock (by rw [hnext.iteration, hstart, zero_add])]
  exact hbefore (j + 1) p.iterate (by omega) (by omega) hnext

theorem Makes.failed_iff {ending : Ending α} {failure : SubproblemFailure α}
    (h : e.Makes start st passes ending st') (hfun : e.oracles.AreFunctions) :
    ending = .failed failure ↔ e.FailsStepping start failure := by
  constructor
  · rintro rfl
    exact h.failsStepping htime hclock haccept hstart hfun
  · intro hfails
    obtain ⟨passes', st'', h'⟩ := hfails.makes htime hclock hstart hfun st
    exact (h.unique h').2.1

theorem solvesBySteps {supplied : Iterate α} (hvalid : e.decomposition.params.validate = .ok ())
    (hnormalize : e.decomposition.normalize supplied = .ok start) (hfun : e.oracles.AreFunctions) (st : σ) :
    e.SolvesBySteps supplied start st := by
  have hmakes : e.Makes start st _ _ _ := run_makes hvalid hstart
  have hfailed : ∀ failure, (e.run start st).1.ending = .failed failure ↔ e.FailsStepping start failure :=
    fun failure => hmakes.failed_iff htime hclock haccept hstart hfun
  have hstarted : e.decomposition.startAt (some supplied) = .ok start := hnormalize
  have hsolve := solveAt_of_makes hvalid hstarted hmakes
  change e.solveFrom supplied st = _ at hsolve
  refine ⟨fun k it st₁ defect h => step_ne_rejected (haccept k it h), ?_, ?_⟩
  · intro failure
    rw [hsolve, ← hfailed, Run.result_eq_error_iff]
  · intro hnever
    rw [hsolve]
    unfold Run.result
    cases hending : (e.run start st).1.ending with
    | failed failure => exact absurd ((hfailed failure).1 hending) (hnever failure)
    | stopped stop =>
      rw [hending] at hmakes
      exact ⟨_, rfl, hmakes.tellsSteps htime hclock haccept hstart⟩

end run

/-! ## Exact arithmetic -/

section exact

variable {e : Engine Exact σ} {start it : Iterate Exact} {st : σ} {kernels : Kernels Exact}
  {p : Problem Exact} {params : Params Exact}

theorem Steps.checkPass (h : e.Steps start k it) (st : σ)
    (hcreate : Decomposition.create kernels p params = .ok e.decomposition)
    (hfun : e.oracles.AreFunctions) (hstart : e.decomposition.IsStart start)
    (hexact : ∀ k it, e.Steps start k it → Scalar.isFinite it.rho = true) :
    e.decomposition.checkPass it = .ok () := by
  obtain ⟨-, -, -, hvalid⟩ := Decomposition.create_ok hcreate
  obtain ⟨passes, st', hleads, -, hpasses⟩ := h.exists_leads hfun st
  have hrho : ∀ p ∈ passes, Scalar.isFinite p.rho = true := by
    intro p hp
    obtain ⟨j, before, -, hbefore, hrho, -⟩ := hpasses p hp
    rw [hrho]
    exact hexact j before hbefore
  obtain ⟨ρ, hρ⟩ := Exact.isFinite_iff.1 (hexact k it h)
  refine Decomposition.checkPass_ok.2 ⟨hleads.hasVectors hcreate hstart hrho, ?_⟩
  exact hleads.rho_pos (Params.validate_ok_iff.1 hvalid) hstart (by simp [hρ])

theorem Steps.isFinite_rho (h : e.Steps start k it) (hparams : e.decomposition.params.Admissible)
    (hfinite : e.decomposition.params.HasFiniteRho) (hstart : Scalar.isFinite start.rho = true) :
    Scalar.isFinite it.rho = true := by
  induction h with
  | refl => exact hstart
  | @snoc _ before next st _ hstep ih =>
    obtain ⟨ρ, hρ⟩ := Exact.isFinite_iff.1 ih
    rw [Decomposition.pass_rho (Prod.ext (step_eq_ok_iff.1 hstep).2 rfl), hρ]
    exact Exact.isFinite_iff.2 (hparams.exists_nextRho hfinite ρ _ _)

theorem normalize_initial (hcreate : Decomposition.create kernels p params = .ok e.decomposition) :
    e.decomposition.normalize e.decomposition.initial = .ok e.decomposition.initial := by
  obtain ⟨-, -, haccepted, hvalid⟩ := Decomposition.create_ok hcreate
  have hwithin := (Params.validate_ok_iff.1 hvalid).rhoInitial_within
  have hstart : e.decomposition.startAt none = .ok e.decomposition.initial := rfl
  exact Decomposition.normalize_of_hasShape (Decomposition.initial_hasVectors haccepted)
    (Decomposition.startAt_hasShape haccepted hstart) (Scalar.clamp_of_mem hwithin.1 hwithin.2)

/-- **A solve is a sequence of steps.** From the standard iterate a solve has the same outcome whether it
is supplied or not. From any other, no iterate of the steps that begin with the supplied one, brought into
form, is rejected; the solve fails as a step before the first stop fails, and otherwise its history has
the records of the steps up to the first stop. The penalties of the steps are exact numbers, that is,
finite; they are whenever those of the start and of the parameters are (`Steps.isFinite_rho`). -/
theorem solveFrom_eq_steps
    (hcreate : Decomposition.create kernels p params = .ok e.decomposition)
    (htime : params.timeLimit = Scalar.infinity) (hclock : ∀ n, Scalar.isFinite (e.clock n) = true)
    (hfun : e.oracles.AreFunctions) :
    (∀ st st', (e.solveFrom e.decomposition.initial st).1 = (e.solve st').1.mapError .failed) ∧
    ∀ supplied start, e.decomposition.normalize supplied = .ok start →
      (∀ k it, e.Steps start k it → Scalar.isFinite it.rho = true) →
        e.decomposition.IsFormOf supplied start ∧ ∀ st, e.SolvesBySteps supplied start st := by
  obtain ⟨-, hparams, -, hvalid⟩ := Decomposition.create_ok hcreate
  rw [← hparams] at htime
  refine ⟨?_, ?_⟩
  · intro st st'
    have hcold : e.decomposition.startAt none = .ok e.decomposition.initial := rfl
    have hwarm : e.decomposition.startAt (some e.decomposition.initial) = .ok e.decomposition.initial :=
      normalize_initial hcreate
    exact solveAt_eq_of_areFunctions hfun hvalid hwarm hcold st st'
  · intro supplied start hnormalize hexact
    have hstart : e.decomposition.startAt (some supplied) = .ok start := hnormalize
    refine ⟨Decomposition.isFormOf_of_normalize hnormalize, ?_⟩
    intro st
    have haccept : ∀ k it, e.Steps start k it → e.decomposition.checkPass it = .ok () :=
      fun k it h => h.checkPass st hcreate hfun (Or.inr ⟨_, hstart⟩) hexact
    exact solvesBySteps htime hclock haccept (Decomposition.startAt_iteration hstart) hvalid hnormalize hfun
      st

end exact

theorem alwaysOne_areFunctions : alwaysOne.oracles.AreFunctions :=
  ⟨Oracle.isFunction_ofFunction _, Oracle.isFunction_ofFunction _⟩

theorem alwaysOne_clock (n : ℕ) : Scalar.isFinite (alwaysOne.clock n) = true :=
  Exact.isFinite_iff.2 ⟨_, rfl⟩

theorem withLimit_steps_isFinite_rho {start it : Iterate Exact} {m : ℤ}
    (h : (alwaysOne.withLimit m).Steps start k it) (hm : 0 < m) (hstart : Scalar.isFinite start.rho = true) :
    Scalar.isFinite it.rho = true := by
  have hcreate := create_withLimit alwaysOne_create hm
  obtain ⟨-, hparams, -, hvalid⟩ := Decomposition.create_ok hcreate
  refine h.isFinite_rho (Params.validate_ok_iff.1 hvalid) ?_ hstart
  rw [hparams]
  exact ⟨Exact.isFinite_iff.2 ⟨_, rfl⟩, Exact.isFinite_iff.2 ⟨_, rfl⟩, Exact.isFinite_iff.2 ⟨_, rfl⟩⟩

/-! ## A run of several passes -/

/-- While the residual is no less than the tolerance, the limit is all that ends a run. -/
theorem stop?_alwaysOne {it : Iterate Exact} {r : ℝ} (hprimal : it.measures.primal = .real r)
    (hr : 1 / 10000 ≤ r) (m : ℤ) :
    (alwaysOne.withLimit m).decomposition.params.stop? alwaysOne.clock it =
      if m ≤ it.iteration then some .iterationLimit else none := by
  have hmet : ¬ (alwaysOne.withLimit m).decomposition.params.isMet it.measures = true := by
    have htolerance : (Params.standard : Params Exact).tolerance = .real (1 / 10000) :=
      (Exact.literal _ _ _).trans (congrArg Exact.real (by norm_num))
    have hnot : ¬ it.measures.primal < (Params.standard : Params Exact).tolerance := by
      rw [hprimal, htolerance, Exact.real_lt_real]
      exact not_lt.2 hr
    intro h
    exact hnot (of_decide_eq_true (Bool.and_eq_true_iff.1 h).1)
  unfold Params.stop?
  rw [if_neg hmet, if_neg (Params.not_timeLimit_le rfl alwaysOne_clock _)]
  rfl

theorem slackened_makes : ∃ first second third,
    (alwaysOne.withLimit 2).Makes slackened () [first, second] (.stopped .iterationLimit) () ∧
    (alwaysOne.withLimit 3).Makes slackened () [first, second, third] (.stopped .iterationLimit) () := by
  obtain ⟨first, hfirst, hfirst', hprimal⟩ :=
    isSlackened_slackened.exists_pass (by norm_num) (by norm_num) (by norm_num)
  obtain ⟨second, hsecond, hsecond', hprimal'⟩ := hfirst'.exists_pass (by norm_num) (by norm_num) (by norm_num)
  obtain ⟨third, hthird, -, hprimal''⟩ := hsecond'.exists_pass (by norm_num) (by norm_num) (by norm_num)
  have hone : first.iteration = 1 := Decomposition.pass_iteration hfirst
  have htwo : second.iteration = 2 := by rw [Decomposition.pass_iteration hsecond, hone, one_add_one_eq_two]
  have hthree : third.iteration = 3 := by
    rw [Decomposition.pass_iteration hthird, htwo]
    rfl
  have hstop := stop?_alwaysOne hprimal (by norm_num)
  have hstop' := stop?_alwaysOne hprimal' (by norm_num)
  have hstop'' := stop?_alwaysOne hprimal'' (by norm_num)
  simp only [hone, htwo, hthree] at hstop hstop' hstop''
  exact ⟨_, _, _, .next hfirst (hstop 2) (.stopped hsecond (hstop' 2)),
    .next hfirst (hstop 3) (.next hsecond (hstop' 3) (.stopped hthird (hstop'' 3)))⟩

theorem slackened_startAt (m i : ℤ) :
    (alwaysOne.withLimit m).decomposition.startAt (some { slackened with iteration := i }) = .ok slackened := by
  have hone : (Vec.ofReal ![1]).IsBinary 1 := Vec.isBinary_ofReal fun i => Or.inr (by simp)
  have hvectors := slackened_hasVectors
  obtain ⟨hlo, hhi⟩ := standard_rho_within (ρ := 10000) (by norm_num) (by norm_num)
  refine Decomposition.normalize_of_hasShape ⟨hvectors.x, hvectors.z, hvectors.s, hvectors.y, hvectors.u⟩
    ⟨hone, hvectors.z.1, hvectors.u, hvectors.s.1, hvectors.y.1, nofun⟩ (Scalar.clamp_of_mem hlo hhi)

theorem slackened_solveAt {m : ℤ} (hm : 0 < m) {passes : List (Pass Exact)} {stop : Stop}
    (h : (alwaysOne.withLimit m).Makes slackened () passes (.stopped stop) ()) :
    (alwaysOne.withLimit m).solveAt (some slackened) () =
      (.ok ((⟨slackened, passes, .stopped stop⟩ : Run Exact).resultAt (alwaysOne.withLimit m).decomposition stop),
        ()) := by
  obtain ⟨-, -, -, hvalid⟩ := Decomposition.create_ok (create_withLimit alwaysOne_create hm)
  exact solveAt_of_makes hvalid (slackened_startAt m 0) h

/-- From `slackened`, supplied with the number seven, three steps are made. -/
theorem solveFrom_eq_steps_slackened :
    let e := alwaysOne.withLimit 3
    let params : Params Exact := { Params.standard with maxIterations := 3 }
    let supplied : Iterate Exact := { slackened with iteration := 7 }
    Decomposition.create .standard e.decomposition.problem params = .ok e.decomposition ∧
      params.timeLimit = Scalar.infinity ∧ (∀ n, Scalar.isFinite (e.clock n) = true) ∧
      e.oracles.AreFunctions ∧
      (e.solveFrom e.decomposition.initial ()).1 = (e.solve ()).1.mapError .failed ∧
      e.decomposition.normalize supplied = .ok slackened ∧
      (∀ k it, e.Steps slackened k it → Scalar.isFinite it.rho = true) ∧
      e.decomposition.IsFormOf supplied slackened ∧ e.SolvesBySteps supplied slackened () ∧
      ∃ r, (e.solveFrom supplied ()).1 = .ok r ∧ e.TellsSteps slackened r.history.records ∧
        r.history.size = 3 := by
  intro e params supplied
  have hcreate : Decomposition.create .standard e.decomposition.problem params = .ok e.decomposition :=
    create_withLimit alwaysOne_create (by decide)
  obtain ⟨-, -, -, hvalid⟩ := Decomposition.create_ok hcreate
  have hexact : ∀ k it, e.Steps slackened k it → Scalar.isFinite it.rho = true :=
    fun k it h => withLimit_steps_isFinite_rho h (by decide) (Exact.isFinite_iff.2 ⟨_, rfl⟩)
  have hstart : e.decomposition.startAt (some supplied) = .ok slackened := slackened_startAt 3 7
  obtain ⟨hsame, hwarm⟩ := solveFrom_eq_steps hcreate rfl alwaysOne_clock alwaysOne_areFunctions
  obtain ⟨hform, hsteps⟩ := hwarm supplied slackened hstart hexact
  refine ⟨hcreate, rfl, alwaysOne_clock, alwaysOne_areFunctions, hsame () (), hstart, hexact, hform,
    hsteps (), ?_⟩
  obtain ⟨first, second, third, -, hmakes⟩ := slackened_makes
  have hsolve : (e.solveFrom supplied ()).1 = .ok _ := congrArg Prod.fst (solveAt_of_makes hvalid hstart hmakes)
  obtain ⟨r, hr, htells⟩ := (hsteps ()).history fun failure hfails => by
    rw [← (hsteps ()).failed_iff, hsolve] at hfails
    cases hfails
  obtain rfl := Except.ok.inj (hsolve.symm.trans hr)
  exact ⟨_, hr, htells, rfl⟩

end Engine

end BinarySplitting
