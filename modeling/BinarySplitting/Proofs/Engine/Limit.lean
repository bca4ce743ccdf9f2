import Mathlib.Data.List.Infix
import BinarySplitting.Proofs.Engine.Penalty
import BinarySplitting.Proofs.Engine.Selection
import BinarySplitting.Proofs.Engine.Steps

/-!
# The limit on the number of passes

The limit decides where a run is cut and nothing else. With a lower limit a run makes the first passes of
the one with a higher limit, and all of them if it converges (`Makes.isPrefix_of_withLimit`); the iterate it
returns otherwise was already among those from which the longer run chooses
(`bestIterate_append_isAtMost`).

An iterate carries all that the passes after it depend on. So a run from the iterate after `k` steps, with
the limit lowered by `k`, makes the remaining passes (`Makes.resume`): such an iterate is supplied as it is,
but for its number and status, and only the numbers of the passes change.
-/

namespace BinarySplitting

variable {α σ : Type} [Scalar α]

/-! ## The preferred iterate -/

/-- Lexicographically at most in primal residual and merit, where values that are equal may be undefined. -/
def Measures.IsAtMost (a b : Measures α) : Prop :=
  a.isBetter b = true ∨ a.primal = b.primal ∧ a.merit = b.merit

/-- Measures as the record of a pass, which is what the order is stated for. -/
def Measures.record (m : Measures α) : Record α :=
  { iteration := 0
    primal := m.primal
    dual := m.dual
    rho := 0.0
    objective := m.objective
    violation := m.violation
    merit := m.merit }

section best

variable [OrderedScalar α] {a b c : Measures α}

omit [OrderedScalar α] in
theorem Measures.isBetter_iff : a.isBetter b = true ↔ a.record.Better b.record := by
  simp [isBetter, Record.Better, record]

theorem Measures.isBetter_trans (hab : a.isBetter b = true) (hbc : b.isBetter c = true) :
    a.isBetter c = true := by
  rw [isBetter_iff] at hab hbc ⊢
  exact hab.trans_noWorse hbc.noWorse

theorem Measures.IsAtMost.trans (hab : a.IsAtMost b) (hbc : b.IsAtMost c) : a.IsAtMost c := by
  rcases hab with hab | ⟨hprimal, hmerit⟩
  · rcases hbc with hbc | ⟨hprimal, hmerit⟩
    · exact Or.inl (Measures.isBetter_trans hab hbc)
    · refine Or.inl ?_
      unfold Measures.isBetter at hab ⊢
      rwa [← hprimal, ← hmerit]
  · unfold IsAtMost Measures.isBetter at hbc ⊢
    rwa [hprimal, hmerit]

/-- The iterate that is preferred after more passes is at most the one preferred before them. -/
theorem bestIterate_append_isAtMost (first : Iterate α) (passes more : List (Pass α)) :
    (bestIterate first (passes ++ more)).measures.IsAtMost (bestIterate first passes).measures := by
  induction more generalizing passes with
  | nil =>
    rw [List.append_nil]
    exact Or.inr ⟨rfl, rfl⟩
  | cons p more ih =>
    have hmore := ih (passes ++ [p])
    rw [List.append_assoc, List.singleton_append] at hmore
    refine hmore.trans ?_
    rw [bestIterate_append_singleton]
    split
    · next hbetter => exact Or.inl hbetter
    · exact Or.inr ⟨rfl, rfl⟩

theorem Run.best_isAtMost {short long : Run α} (h : short.passes <+: long.passes)
    (hpos : 0 < short.passes.length) : long.best.measures.IsAtMost short.best.measures := by
  obtain ⟨p, rest, hpasses⟩ := List.exists_cons_of_length_pos hpos
  obtain ⟨more, hmore⟩ := h
  rw [hpasses, List.cons_append] at hmore
  unfold Run.best
  rw [hpasses, ← hmore]
  exact bestIterate_append_isAtMost p.iterate rest more

end best

namespace Engine

variable {e : Engine α σ} {start it : Iterate α} {st st' : σ} {passes : List (Pass α)} {m : ℤ}

/-! ## A lower limit -/

theorem stop?_withLimit_converged
    (h : (e.withLimit m).decomposition.params.stop? e.clock it = some .converged) :
    e.decomposition.params.stop? e.clock it = some .converged := by
  have hmet := Params.isMet_of_stop?_converged h
  exact Params.stop?_converged hmet

theorem stop?_withLimit_none (hm : m ≤ e.decomposition.params.maxIterations)
    (h : (e.withLimit m).decomposition.params.stop? e.clock it = none) :
    e.decomposition.params.stop? e.clock it = none := by
  have hlt := iteration_lt_of_stop?_none h
  have hmet := Params.not_isMet_of_stop?_none h
  have hlimit : ¬ e.decomposition.params.maxIterations ≤ it.iteration := not_le.2 (hlt.trans_le hm)
  unfold Params.stop? at h ⊢
  rw [if_neg hmet, if_neg (not_le.2 hlt)] at h
  rwa [if_neg (show ¬ e.decomposition.params.isMet it.measures = true from hmet), if_neg hlimit]

/-- **With a lower limit a run makes the first passes of the one with a higher limit**, and all of them if
it converges. -/
theorem Makes.isPrefix_of_withLimit {short long : List (Pass α)} {ending ending' : Ending α} {st'' : σ}
    (hm : m ≤ e.decomposition.params.maxIterations)
    (h : (e.withLimit m).Makes it st short ending st') (h' : e.Makes it st long ending' st'') :
    short <+: long ∧ (ending = .stopped .converged → short = long ∧ ending' = .stopped .converged) := by
  induction h generalizing long ending' st'' with
  | failed _ =>
    refine ⟨?_, nofun⟩
    exact List.nil_prefix
  | stopped hpass hstop =>
    rw [pass_withLimit] at hpass
    cases h' with
    | failed hpass' => cases hpass.symm.trans hpass'
    | stopped hpass' hstop' =>
      cases hpass.symm.trans hpass'
      refine ⟨List.prefix_rfl, fun hconverged => ⟨rfl, ?_⟩⟩
      obtain rfl := Ending.stopped.inj hconverged
      rw [stop?_withLimit_converged hstop] at hstop'
      exact congrArg Ending.stopped (Option.some.inj hstop').symm
    | next hpass' hstop' _ =>
      cases hpass.symm.trans hpass'
      refine ⟨List.prefix_append [_] _, fun hconverged => ?_⟩
      obtain rfl := Ending.stopped.inj hconverged
      cases hstop'.symm.trans (stop?_withLimit_converged hstop)
  | next hpass hstop _ ih =>
    rw [pass_withLimit] at hpass
    have hnone := stop?_withLimit_none hm hstop
    cases h' with
    | failed hpass' => cases hpass.symm.trans hpass'
    | stopped hpass' hstop' =>
      cases hpass.symm.trans hpass'
      cases hnone.symm.trans hstop'
    | next hpass' _ hrest' =>
      cases hpass.symm.trans hpass'
      obtain ⟨hrest, hconverged⟩ := ih hrest'
      refine ⟨List.cons_prefix_cons.2 ⟨rfl, hrest⟩, fun hending => ?_⟩
      obtain ⟨rfl, hlong⟩ := hconverged hending
      exact ⟨rfl, hlong⟩

theorem Makes.results_of_withLimit [OrderedScalar α] {short long : Run α} {stop stop' : Stop} {st'' : σ}
    (hm : m ≤ e.decomposition.params.maxIterations) (hstart : short.start = long.start)
    (h : (e.withLimit m).Makes short.start st short.passes (.stopped stop) st')
    (h' : e.Makes long.start st long.passes (.stopped stop') st'') :
    short.history.records <+: long.history.records ∧
      (stop = .converged →
        short.resultAt (e.withLimit m).decomposition stop = long.resultAt e.decomposition stop') ∧
      (stop ≠ .converged → stop' ≠ .converged →
        (long.selected stop').measures.IsAtMost (short.selected stop).measures) := by
  rw [← hstart] at h'
  obtain ⟨hfirst, hconverged⟩ := h.isPrefix_of_withLimit hm h'
  refine ⟨hfirst.map Pass.record, ?_, ?_⟩
  · rintro rfl
    obtain ⟨hpasses, hstop⟩ := hconverged rfl
    obtain rfl := Ending.stopped.inj hstop
    unfold Run.resultAt Run.selected Run.last Run.history
    rw [if_pos rfl, if_pos rfl, hpasses, hstart]
    rfl
  · intro hstop hstop'
    unfold Run.selected
    rw [if_neg hstop', if_neg hstop]
    exact Run.best_isAtMost hfirst h.length_pos

/-! ## Going on from an iterate -/

theorem stop?_withLimit_shift [OrderedScalar α]
    (htime : e.decomposition.params.timeLimit = Scalar.infinity)
    (hclock : ∀ n, Scalar.isFinite (e.clock n) = true) (k : ℕ) (it : Iterate α) :
    (e.withLimit (e.decomposition.params.maxIterations - k)).decomposition.params.stop? e.clock
        (it.shift (-k)) = e.decomposition.params.stop? e.clock it := by
  have hover := Params.not_timeLimit_le htime hclock
  have hlimit : e.decomposition.params.maxIterations - k ≤ it.iteration + -(k : ℤ) ↔
      e.decomposition.params.maxIterations ≤ it.iteration := by
    omega
  unfold Params.stop? withLimit Iterate.shift
  dsimp only
  rw [if_neg (hover _), if_neg (hover _)]
  simp only [hlimit]
  rfl

/-- The passes of a run from the `k`-th on, numbered from zero, are a run of their own from the iterate
that comes before them. -/
theorem Makes.resume [OrderedScalar α] {ending : Ending α} (h : e.Makes start st passes ending st')
    (htime : e.decomposition.params.timeLimit = Scalar.infinity)
    (hclock : ∀ n, Scalar.isFinite (e.clock n) = true) (hfun : e.oracles.AreFunctions)
    (hstart : start.iteration = 0) {k : ℕ} (hk : k < passes.length) :
    ∃ it st₁, e.Leads start st (passes.take k) it st₁ ∧ ∀ st₂, ∃ st₃,
      (e.withLimit (e.decomposition.params.maxIterations - k)).Makes
        { it with iteration := 0, status := .initialized } st₂ ((passes.drop k).map (Pass.shift (-k)))
        (ending.shift (-k)) st₃ := by
  obtain ⟨it, st₁, hleads, hmakes⟩ := h.split hk
  have hiteration := hleads.iteration
  rw [hstart, List.length_take_of_le hk.le] at hiteration
  have hagree : e.decomposition.Agree (-k) it { it with iteration := 0, status := .initialized } :=
    ⟨rfl, rfl, rfl, rfl, fun _ => rfl, by dsimp only; omega⟩
  exact ⟨it, st₁, hleads, hmakes.shift hagree hfun _ (stop?_withLimit_shift htime hclock k)⟩

theorem Leads.rho_within [OrderedScalar α] {start? : Option (Iterate α)}
    (h : e.Leads start st passes it st') (hparams : e.decomposition.params.Admissible)
    (hstart : e.decomposition.startAt start? = .ok start) (hdefined : it.rho ≤ it.rho) :
    e.decomposition.params.rhoMin ≤ it.rho ∧ it.rho ≤ e.decomposition.params.rhoMax := by
  cases h with
  | refl =>
    rw [Decomposition.startAt_rho hstart] at hdefined ⊢
    cases start? with
    | none => exact hparams.rhoInitial_within
    | some supplied => exact Scalar.clamp_within hparams.rhoMin_le_rhoMax hdefined
  | snoc _ hpass =>
    rw [Decomposition.pass_rho hpass] at hdefined ⊢
    exact Scalar.clamp_within hparams.rhoMin_le_rhoMax hdefined

end Engine

/-- A result is the rest of another one after `k` passes. -/
structure Result.IsRestOf (rest r : Result α) (k : ℕ) : Prop where
  records : rest.history.records = (r.history.records.drop k).map (Record.shift (-k))
  stop : rest.stop = r.stop
  finalRho : rest.finalRho = r.finalRho

theorem Run.isRestOf {run : Run α} {k : ℕ} (hk : k < run.passes.length) (d d' : Decomposition α)
    (start : Iterate α) (stop : Stop) :
    ((⟨start, (run.passes.drop k).map (Pass.shift (-k)), .stopped stop⟩ : Run α).resultAt d' stop).IsRestOf
      (run.resultAt d stop) k := by
  refine ⟨?_, rfl, ?_⟩
  · have hrecord : Pass.record ∘ Pass.shift (-k) = Record.shift (-k) ∘ (Pass.record : Pass α → _) :=
      funext fun p => p.record_shift (-k)
    change ((run.passes.drop k).map _).map Pass.record = ((run.passes.map Pass.record).drop k).map _
    rw [List.map_map, hrecord, ← List.map_map, List.map_drop]
  · change (Run.last _).rho = run.last.rho
    obtain ⟨p, hp⟩ : ∃ p, run.passes.getLast? = some p :=
      ⟨_, List.getLast?_eq_getLast_of_ne_nil (List.ne_nil_of_length_pos (Nat.zero_lt_of_lt hk))⟩
    unfold Run.last
    dsimp only
    rw [List.getLast?_map, List.getLast?_drop, if_neg (by omega), hp]
    rfl

namespace Engine

section exact

variable {e : Engine Exact σ} {start it : Iterate Exact} {st st' : σ} {kernels : Kernels Exact}
  {p : Problem Exact} {params : Params Exact} {start? : Option (Iterate Exact)} {k : ℕ}

theorem Steps.normalize (h : e.Steps start k it) (st : σ)
    (hcreate : Decomposition.create kernels p params = .ok e.decomposition)
    (hfun : e.oracles.AreFunctions) (hstart : e.decomposition.startAt start? = .ok start)
    (hexact : ∀ k it, e.Steps start k it → Scalar.isFinite it.rho = true) :
    e.decomposition.normalize it = .ok { it with iteration := 0, status := .initialized } := by
  obtain ⟨-, -, haccepted, hvalid⟩ := Decomposition.create_ok hcreate
  have hcheck := h.checkPass st hcreate hfun (Or.inr ⟨start?, hstart⟩) hexact
  obtain ⟨passes, st', hleads, -, -⟩ := h.exists_leads hfun st
  have hshape : e.decomposition.HasShape it :=
    hleads.invariant (fun _ _ _ _ hkeep => hkeep.pass) (Decomposition.startAt_hasShape haccepted hstart)
  obtain ⟨ρ, hρ⟩ := Exact.isFinite_iff.1 (hexact k it h)
  obtain ⟨hmin, hmax⟩ :=
    hleads.rho_within (Params.validate_ok_iff.1 hvalid) hstart (by simp [hρ])
  exact Decomposition.normalize_of_hasShape (Decomposition.checkPass_ok.1 hcheck).1 hshape
    (Scalar.clamp_of_mem hmin hmax)

/-- From the iterate after `k` steps, with the limit lowered by `k`, a solve gives the rest of a result. -/
theorem Makes.exists_rest {run : Run Exact} {stop : Stop}
    (h : e.Makes run.start st run.passes (.stopped stop) st')
    (hcreate : Decomposition.create kernels p params = .ok e.decomposition)
    (htime : e.decomposition.params.timeLimit = Scalar.infinity)
    (hclock : ∀ n, Scalar.isFinite (e.clock n) = true) (hfun : e.oracles.AreFunctions)
    (hstart : e.decomposition.startAt start? = .ok run.start)
    (hexact : ∀ k it, e.Steps run.start k it → Scalar.isFinite it.rho = true)
    (hk : k < run.passes.length) :
    (∃ it, e.Steps run.start k it) ∧ ∀ it st₁, e.Steps run.start k it →
      ∃ rest, ((e.withLimit (e.decomposition.params.maxIterations - k)).solveFrom it st₁).1 = .ok rest ∧
        rest.IsRestOf (run.resultAt e.decomposition stop) k := by
  obtain ⟨-, -, -, hvalid⟩ := Decomposition.create_ok hcreate
  have hzero := Decomposition.startAt_iteration hstart
  have haccept : ∀ k it, e.Steps run.start k it → e.decomposition.checkPass it = .ok () :=
    fun k it h => h.checkPass st hcreate hfun (Or.inr ⟨_, hstart⟩) hexact
  obtain ⟨it, st₂, hleads, hresume⟩ := h.resume htime hclock hfun hzero hk
  have hsteps := hleads.steps haccept
  rw [List.length_take_of_le hk.le] at hsteps
  refine ⟨⟨it, hsteps⟩, ?_⟩
  intro it' st₁ hsteps'
  obtain rfl := hsteps.unique hfun hsteps'
  have hle := h.length_le hzero (Params.maxIterations_pos hvalid)
  have hvalid' := (Params.validate_ok_iff.1 hvalid).withLimit
    (show 0 < e.decomposition.params.maxIterations - k by omega)
  have hstart' : (e.withLimit (e.decomposition.params.maxIterations - k)).decomposition.startAt (some it) =
      .ok { it with iteration := 0, status := .initialized } :=
    hsteps.normalize st hcreate hfun hstart hexact
  obtain ⟨st₃, hmakes⟩ := hresume st₁
  have hsolve := solveAt_of_makes (Params.validate_ok_iff.2 hvalid') hstart' hmakes
  exact ⟨_, congrArg Prod.fst hsolve, Run.isRestOf hk _ _ _ _⟩

/-- **The limit on the number of passes.** A result with a lower limit has the first records; it is the
same if it converged, and if neither did, the iterate selected with the higher limit is at most the other
one in primal residual and merit. And from the iterate after `k` steps, with the limit lowered by `k`, a
solve gives the rest of the result. The penalties of these steps are exact numbers, that is, finite; they
are whenever those of the start and of the parameters are (`Steps.isFinite_rho`). -/
theorem solveAt_withLimit {r : Result Exact}
    (hcreate : Decomposition.create kernels p params = .ok e.decomposition)
    (htime : params.timeLimit = Scalar.infinity) (hclock : ∀ n, Scalar.isFinite (e.clock n) = true)
    (hfun : e.oracles.AreFunctions) (hsolve : e.solveAt start? st = (.ok r, st')) :
    (∀ m r₁ st₁ st₁', 0 < m → m < params.maxIterations →
      (e.withLimit m).solveAt start? st₁ = (.ok r₁, st₁') →
        r₁.history.records <+: r.history.records ∧ (r₁.stop = .converged → r₁ = r) ∧
        (r₁.stop ≠ .converged → r.stop ≠ .converged → ∃ run₁ run,
          (e.withLimit m).runAt start? st₁ = (.ok run₁, st₁') ∧ e.runAt start? st = (.ok run, st') ∧
          (run.selected r.stop).measures.IsAtMost (run₁.selected r₁.stop).measures)) ∧
    ∀ start, e.decomposition.startAt start? = .ok start →
      (∀ k it, e.Steps start k it → Scalar.isFinite it.rho = true) →
        ∀ k < r.history.size, (∃ it, e.Steps start k it) ∧ ∀ it st₁, e.Steps start k it →
          ∃ rest, ((e.withLimit (params.maxIterations - k)).solveFrom it st₁).1 = .ok rest ∧
            rest.IsRestOf r k := by
  obtain ⟨-, hparams, -, hvalid⟩ := Decomposition.create_ok hcreate
  rw [← hparams] at htime ⊢
  obtain ⟨run, stop, hrun, hending, rfl⟩ := solveAt_ok hsolve
  obtain ⟨hstart, hmakes⟩ := runAt_makes hvalid hrun
  rw [hending] at hmakes
  refine ⟨?_, ?_⟩
  · intro m r₁ st₁ st₁' hm hlt hsolve₁
    obtain ⟨-, -, -, hvalid₁⟩ := Decomposition.create_ok (create_withLimit hcreate hm)
    obtain ⟨run₁, stop₁, hrun₁, hending₁, rfl⟩ := solveAt_ok hsolve₁
    obtain ⟨hstart₁, hmakes₁⟩ := runAt_makes hvalid₁ hrun₁
    rw [hending₁] at hmakes₁
    have hsame : run₁.start = run.start := Except.ok.inj (hstart₁.symm.trans hstart)
    obtain ⟨st₂, hmakes'⟩ := hmakes.of_agree (.refl _ _) hfun st₁
    obtain ⟨hrecords, hconverged, hselected⟩ :=
      hmakes₁.results_of_withLimit hlt.le hsame hmakes'
    exact ⟨hrecords, hconverged, fun hstop₁ hstop =>
      ⟨run₁, run, hrun₁, hrun, hselected hstop₁ hstop⟩⟩
  · intro start hstart' hexact k hk
    obtain rfl : run.start = start := Except.ok.inj (hstart.symm.trans hstart')
    exact hmakes.exists_rest hcreate htime hclock hfun hstart hexact (run.size_history ▸ hk)

end exact

/-- From `slackened`, of whose first three passes none meets the stopping test: limits of two and three. -/
theorem solveAt_withLimit_slackened :
    let e := alwaysOne.withLimit 3
    let params : Params Exact := { Params.standard with maxIterations := 3 }
    Decomposition.create .standard e.decomposition.problem params = .ok e.decomposition ∧
      params.timeLimit = Scalar.infinity ∧ (∀ n, Scalar.isFinite (e.clock n) = true) ∧
      e.oracles.AreFunctions ∧ e.decomposition.startAt (some slackened) = .ok slackened ∧
      (∀ k it, e.Steps slackened k it → Scalar.isFinite it.rho = true) ∧
      ∃ r₁ r run₁ run, (e.withLimit 2).solveAt (some slackened) () = (.ok r₁, ()) ∧
        e.solveAt (some slackened) () = (.ok r, ()) ∧
        r₁.history.records <+: r.history.records ∧ r₁.history.size = 2 ∧ r.history.size = 3 ∧
        r₁.stop ≠ .converged ∧ r.stop ≠ .converged ∧
        (e.withLimit 2).runAt (some slackened) () = (.ok run₁, ()) ∧
        e.runAt (some slackened) () = (.ok run, ()) ∧
        (run.selected r.stop).measures.IsAtMost (run₁.selected r₁.stop).measures ∧
        ∀ k < 3, (∃ it, e.Steps slackened k it) ∧ ∀ it, e.Steps slackened k it → ∃ rest,
          ((e.withLimit (3 - k)).solveFrom it ()).1 = .ok rest ∧ rest.IsRestOf r k := by
  intro e params
  have hcreate : Decomposition.create .standard e.decomposition.problem params = .ok e.decomposition :=
    create_withLimit alwaysOne_create (by decide)
  have hfinite : ∀ k it, e.Steps slackened k it → Scalar.isFinite it.rho = true :=
    fun k it h => withLimit_steps_isFinite_rho h (by decide) (Exact.isFinite_iff.2 ⟨_, rfl⟩)
  obtain ⟨first, second, third, htwo, hthree⟩ := slackened_makes
  have hsolve₁ := slackened_solveAt (by decide) htwo
  have hsolve := slackened_solveAt (by decide) hthree
  obtain ⟨hlimit, hresume⟩ := solveAt_withLimit hcreate rfl alwaysOne_clock alwaysOne_areFunctions hsolve
  obtain ⟨hfirst, -, hcompare⟩ := hlimit 2 _ () () (by decide) (by decide) hsolve₁
  obtain ⟨run₁, run, hrun₁, hrun, hatMost⟩ := hcompare nofun nofun
  refine ⟨hcreate, rfl, alwaysOne_clock, alwaysOne_areFunctions, slackened_startAt 3 0, hfinite, _, _, run₁, run,
    hsolve₁, hsolve, hfirst, rfl, rfl, nofun, nofun, hrun₁, hrun, hatMost, ?_⟩
  intro k hk
  obtain ⟨hsteps, hrest⟩ := hresume slackened (slackened_startAt 3 0) hfinite k hk
  exact ⟨hsteps, fun it h => hrest it () h⟩

end Engine

end BinarySplitting
