import BinarySplitting.Proofs.Engine.Completion
import BinarySplitting.Proofs.Engine.History
import BinarySplitting.Proofs.Qubo.Raised

/-!
# The constant of a problem

A real that is added to the constant of a problem is added to the constant of every binary problem, to
every objective and to every merit, and to nothing else. Merits are only compared with each other, so if
the binary oracle ignores the constant, as the exhaustive search does, a run over the raised problem makes
the same passes with raised objectives and merits (`Decomposition.pass_raised`, `Engine.passes_raised`):
what a pass is given besides, the measures of the pass before, it does not read. The same iterate is then
selected, and the result is the same with a raised objective and raised records (`Engine.solveAt_raised`).

The two runs are made at different times. Without a time limit their clocks do not matter.
-/

namespace BinarySplitting

/-! ## Raised data -/

section generic

variable {α σ : Type} [Scalar α]

def Problem.raised (p : Problem α) (k : α) : Problem α := { p with constant := p.constant + k }

def Decomposition.raised (d : Decomposition α) (k : α) : Decomposition α :=
  { d with problem := d.problem.raised k, constant := d.constant + k }

def Measures.raised (m : Measures α) (k : α) : Measures α :=
  { m with objective := m.objective + k, merit := m.merit + k }

def Iterate.withMeasures (it : Iterate α) (m : Measures α) : Iterate α := { it with measures := m }

def Iterate.raised (it : Iterate α) (k : α) : Iterate α := it.withMeasures (it.measures.raised k)

def Pass.raised (p : Pass α) (k : α) : Pass α := { p with iterate := p.iterate.raised k }

/-- The run with raised passes; no pass measured its start. -/
def Run.raised (r : Run α) (k : α) : Run α := { r with passes := r.passes.map (·.raised k) }

def Record.raised (r : Record α) (k : α) : Record α :=
  { r with objective := r.objective + k, merit := r.merit + k }

def History.raised (h : History α) (k : α) : History α := { h with records := h.records.map (·.raised k) }

/-- The result with a higher objective, also in its history. -/
def Result.raised (r : Result α) (k : α) : Result α :=
  { r with objective := r.objective + k, history := r.history.raised k }

/-- The engine for the raised problem, with a clock of its own. -/
def Engine.raised (e : Engine α σ) (k : α) (clock : ℕ → α) : Engine α σ :=
  { e with decomposition := e.decomposition.raised k, clock }

end generic

variable {σ : Type} {d : Decomposition Exact} (k : ℝ)

theorem Problem.Accepted.raised {spectrum : Mat Exact → Vec Exact} {p : Problem Exact}
    (h : p.Accepted spectrum) : (p.raised k).Accepted spectrum :=
  { h with constant_finite := Exact.isFinite_add_real h.constant_finite k }

theorem Problem.objective_raised (p : Problem Exact) (x u : Vec Exact) :
    (p.raised k).objective x u = p.objective x u + .real k :=
  (Exact.add_assoc _ _ _).symm

theorem Measures.isBetter_raised (m best : Measures Exact) :
    (m.raised k).isBetter (best.raised k) = m.isBetter best := by
  unfold isBetter raised
  simp only [Exact.add_real_lt_add_real_iff]

/-! ## Passes -/

namespace Decomposition

theorem ofProblem_raised (p : Problem Exact) (params : Params Exact) :
    ofProblem (p.raised k) params = (ofProblem p params).raised k := by
  have hcount : (p.raised k).numEqualities = p.numEqualities := rfl
  unfold ofProblem
  dsimp only
  rw [hcount]
  split
  · rfl
  · exact congrArg (fun constant => Decomposition.mk (p.raised k) params _ _ constant _)
      (Exact.add_right_comm _ _ _)

theorem qubo_raised (it : Iterate Exact) : (d.raised k).qubo it = (d.qubo it).raised k := by
  unfold qubo Qubo.raised raised
  dsimp only
  rw [Exact.add_sub_right_comm, Exact.add_right_comm]

theorem updateContinuous_measures {α : Type} [Scalar α] (d : Decomposition α) (oracle : Oracle (Program α) α σ)
    (it : Iterate α) (m : Measures α) (st : σ) :
    d.updateContinuous oracle (it.withMeasures m) st =
      ((d.updateContinuous oracle it st).1.map (·.withMeasures m),
        (d.updateContinuous oracle it st).2) := by
  have hrelax : d.relax (it.withMeasures m) = (d.relax it).withMeasures m := by
    unfold relax
    split
    · rfl
    · rfl
  cases hneeds : d.needsProgram with
  | false =>
    rw [updateContinuous_of_closed oracle hneeds, updateContinuous_of_closed oracle hneeds, hrelax]
    rfl
  | true =>
    have hprogram : d.program ((d.relax it).withMeasures m) = d.program (d.relax it) := rfl
    rw [updateContinuous_of_program oracle hneeds, updateContinuous_of_program oracle hneeds, hrelax, hprogram]
    cases acceptContinuous (d.numRelaxed + d.problem.numContinuous) (oracle (d.program (d.relax it)) st).1 with
    | error fault => rfl
    | ok w => rfl

theorem measure_raised (it : Iterate Exact) (residual change : Vec Exact) :
    (d.raised k).measure it residual change = (d.measure it residual change).raised k := by
  have hobjective : (d.raised k).problem.objective it.x it.u = d.problem.objective it.x it.u + .real k :=
    d.problem.objective_raised k it.x it.u
  unfold measure
  dsimp only
  rw [hobjective]
  exact congrArg (Measures.mk _ _ _ _) (Exact.add_right_comm _ _ _)

theorem finish_raised (zBefore : Vec Exact) (it : Iterate Exact) (m : Measures Exact) :
    (d.raised k).finish zBefore (it.withMeasures m) = (d.finish zBefore it).raised k := by
  have hthree : (d.raised k).params.threeBlock = d.params.threeBlock := rfl
  unfold finish
  dsimp only
  rw [hthree]
  split
  · rw [measure_raised]
    rfl
  · rw [measure_raised]
    rfl

/-- **A pass over the raised problem is the same pass with raised measures**, whatever was measured before. -/
theorem pass_raised {oracles : Oracles Exact σ} (hbinary : oracles.binary.IgnoresConstant)
    (it : Iterate Exact) (m : Measures Exact) (st : σ) :
    (d.raised k).pass oracles (it.withMeasures m) st =
      ((d.pass oracles it st).1.map (·.raised k), (d.pass oracles it st).2) := by
  have hanswer : oracles.binary ((d.raised k).qubo (it.withMeasures m)) st =
      oracles.binary (d.qubo it) st := by
    rw [qubo_raised]
    exact hbinary (d.qubo it) k st
  have hupdated : ∀ x st, (d.raised k).updateContinuous oracles.continuous ({ it with x }.withMeasures m) st =
      ((d.updateContinuous oracles.continuous { it with x } st).1.map (·.withMeasures m),
        (d.updateContinuous oracles.continuous { it with x } st).2) :=
    fun x st => d.updateContinuous_measures oracles.continuous { it with x } m st
  rcases hpass : d.pass oracles it st with ⟨failure | next, st'⟩
  · obtain ⟨fault, haccept, rfl, rfl⟩ | ⟨x, fault, haccept, hupdate, rfl⟩ := pass_error hpass
    · rw [← hanswer] at haccept ⊢
      exact pass_of_refused haccept
    · have hfault := hupdated x (oracles.binary (d.qubo it) st).2
      rw [hupdate, ← hanswer] at hfault
      rw [← hanswer] at haccept
      exact pass_of_fault haccept hfault
  · obtain ⟨x, updated, haccept, hupdate, rfl⟩ := pass_ok hpass
    have hnext := hupdated x (oracles.binary (d.qubo it) st).2
    rw [hupdate, ← hanswer] at hnext
    rw [← hanswer] at haccept
    refine (pass_of_updated haccept hnext).trans ?_
    rw [finish_raised]
    rfl

theorem startAt_raised (start? : Option (Iterate Exact)) : (d.raised k).startAt start? = d.startAt start? := by
  cases start? with
  | none => rfl
  | some it => rfl

end Decomposition

/-! ## Results -/

namespace Run

theorem bestIterate_raised (first : Iterate Exact) (passes : List (Pass Exact)) :
    bestIterate (first.raised k) (passes.map (·.raised k)) = (bestIterate first passes).raised k := by
  induction passes generalizing first with
  | nil => rfl
  | cons p rest ih =>
    have hbetter : (p.raised k).iterate.measures.isBetter (first.raised k).measures =
        p.iterate.measures.isBetter first.measures := Measures.isBetter_raised k _ _
    unfold bestIterate at ih ⊢
    rw [List.map_cons, List.foldl_cons, List.foldl_cons, hbetter]
    split
    · exact ih p.iterate
    · exact ih first

theorem last_raised (r : Run Exact) : ∃ m, (r.raised k).last = r.last.withMeasures m := by
  obtain ⟨start, passes, ending⟩ := r
  unfold last raised
  dsimp only
  rw [List.getLast?_map]
  cases passes.getLast? with
  | none => exact ⟨_, rfl⟩
  | some p => exact ⟨_, rfl⟩

theorem selected_raised (r : Run Exact) (stop : Stop) :
    ∃ m, (r.raised k).selected stop = (r.selected stop).withMeasures m := by
  unfold selected
  split
  · exact r.last_raised k
  · obtain ⟨start, passes, ending⟩ := r
    cases passes with
    | nil => exact ⟨_, rfl⟩
    | cons p rest => exact ⟨_, bestIterate_raised k p.iterate rest⟩

theorem history_raised (r : Run Exact) : (r.raised k).history = r.history.raised k := by
  unfold history raised History.raised
  dsimp only
  rw [List.map_map, List.map_map]
  rfl

theorem resultAt_raised (r : Run Exact) (stop : Stop) :
    (r.raised k).resultAt (d.raised k) stop = (r.resultAt d stop).raised k := by
  obtain ⟨m, hselected⟩ := r.selected_raised k stop
  obtain ⟨m', hlast⟩ := r.last_raised k
  have hsize : (r.history.raised k).size = r.history.size := List.length_map _
  have hobjective : (d.raised k).problem.objective (r.selected stop).x (r.selected stop).u =
      d.problem.objective (r.selected stop).x (r.selected stop).u + .real k :=
    d.problem.objective_raised k _ _
  unfold resultAt Result.ofIterate
  rw [hselected, hlast, history_raised, hsize]
  dsimp only [Iterate.withMeasures]
  rw [hobjective]
  rfl

theorem result_raised (r : Run Exact) :
    (r.raised k).result (d.raised k) = (r.result d).map (·.raised k) := by
  unfold result
  have hending : (r.raised k).ending = r.ending := rfl
  rw [hending]
  cases r.ending with
  | failed failure => rfl
  | stopped stop => exact congrArg Except.ok (r.resultAt_raised k stop)

end Run

/-! ## Runs -/

namespace Engine

variable {e : Engine Exact σ} {clock : ℕ → Exact}

section passes

variable (hbinary : e.oracles.binary.IgnoresConstant)
  (hstop : ∀ it, e.decomposition.params.stop? clock it = e.decomposition.params.stop? e.clock it)

include hbinary hstop

/-- The loop over the raised problem makes the raised passes, by induction on the fuel. -/
theorem passes_raised (fuel : ℕ) (it : Iterate Exact) (m : Measures Exact) (st : σ) :
    (e.raised k clock).passes fuel (it.withMeasures m) st =
      (((e.passes fuel it st).1.1.map (·.raised k), (e.passes fuel it st).1.2), (e.passes fuel it st).2) := by
  induction fuel generalizing it m st with
  | zero => rfl
  | succ fuel ih =>
    have hpass' : (e.raised k clock).decomposition.pass (e.raised k clock).oracles (it.withMeasures m) st =
        _ := Decomposition.pass_raised k hbinary it m st
    have hstop' : ∀ next : Iterate Exact, (e.raised k clock).decomposition.params.stop?
        (e.raised k clock).clock (next.raised k) = e.decomposition.params.stop? e.clock next := hstop
    rcases hpass : e.decomposition.pass e.oracles it st with ⟨failure | next, st'⟩
    · rw [hpass] at hpass'
      rw [passes_of_failed fuel hpass', passes_of_failed fuel hpass]
      rfl
    · rw [hpass] at hpass'
      cases hends : e.decomposition.params.stop? e.clock next with
      | some stop =>
        rw [passes_of_stopped fuel hpass' ((hstop' next).trans hends), passes_of_stopped fuel hpass hends]
        rfl
      | none =>
        rw [passes_of_next fuel hpass' ((hstop' next).trans hends), passes_of_next fuel hpass hends]
        have hrest : (e.raised k clock).passes fuel (next.raised k) st' = _ := ih next _ st'
        rw [hrest]
        rfl

theorem run_raised (start : Iterate Exact) (st : σ) :
    (e.raised k clock).run start st = ((e.run start st).1.raised k, (e.run start st).2) := by
  have hrun : ∀ e : Engine Exact σ, e.run start st =
      (⟨start, (e.passes e.decomposition.params.maxIterations.toNat start st).1.1,
        (e.passes e.decomposition.params.maxIterations.toNat start st).1.2⟩,
        (e.passes e.decomposition.params.maxIterations.toNat start st).2) := fun _ => rfl
  have hpasses : (e.raised k clock).passes (e.raised k clock).decomposition.params.maxIterations.toNat start st =
      _ := passes_raised k hbinary hstop _ start start.measures st
  rw [hrun, hrun, hpasses]
  rfl

end passes

/-- **Raising the constant of a problem raises the objective and the recorded objectives and merits and
changes nothing else**, with the exhaustive search for the binary problems, any oracle for the programs and no
time limit. -/
theorem solveAt_raised {kernels : Kernels Exact} {p : Problem Exact} {params : Params Exact} {s : Qubo.Search}
    (hcreate : Decomposition.create kernels p params = .ok e.decomposition)
    (htime : params.timeLimit = Scalar.infinity) (hclock : ∀ n, Scalar.isFinite (e.clock n) = true)
    (hclock' : ∀ n, Scalar.isFinite (clock n) = true) (hsearch : e.oracles.binary = .ofSearch s) :
    Decomposition.create kernels (p.raised k) params = .ok (e.raised k clock).decomposition ∧
      ∀ start? st, (e.raised k clock).solveAt start? st =
        ((e.solveAt start? st).1.map (·.raised k), (e.solveAt start? st).2) := by
  obtain ⟨haccepted, hvalid, hd⟩ := Decomposition.create_eq_ok_iff.1 hcreate
  have hparams : e.decomposition.params = params := by rw [hd, Decomposition.ofProblem_params]
  have hbinary : e.oracles.binary.IgnoresConstant := by
    rw [hsearch]
    exact Oracle.ignoresConstant_ofSearch s
  have hstop : ∀ it, e.decomposition.params.stop? clock it = e.decomposition.params.stop? e.clock it := by
    intro it
    rw [hparams]
    unfold Params.stop?
    rw [if_neg (Params.not_timeLimit_le htime hclock _), if_neg (Params.not_timeLimit_le htime hclock' _)]
  refine ⟨Decomposition.create_eq_ok_iff.2 ⟨haccepted.raised k, hvalid, ?_⟩, fun start? st => ?_⟩
  · rw [Decomposition.ofProblem_raised, ← hd]
    rfl
  have hstart : (e.raised k clock).decomposition.startAt start? = e.decomposition.startAt start? :=
    Decomposition.startAt_raised k start?
  cases haccept : e.decomposition.startAt start? with
  | error defect =>
    rw [solveAt_of_refused haccept, solveAt_of_refused (hstart.trans haccept)]
    rfl
  | ok start =>
    rw [solveAt_of_start haccept, solveAt_of_start (hstart.trans haccept), run_raised k hbinary hstop]
    have hresult : ((e.run start st).1.raised k).result (e.raised k clock).decomposition =
        ((e.run start st).1.result e.decomposition).map (·.raised k) := Run.result_raised k _
    rw [hresult]
    cases (e.run start st).1.result e.decomposition <;> rfl

/-- An engine for one binary variable with the exhaustive search. -/
noncomputable def searched : Engine Exact Unit :=
  { alwaysOne with oracles.binary := .ofSearch ⟨24, by decide, by decide⟩ }

/-- The second run is made by a slower clock. -/
theorem solveAt_raised_searched :
    let clock : ℕ → Exact := fun n => .real n
    Decomposition.create .standard searched.decomposition.problem .standard = .ok searched.decomposition ∧
      (Params.standard : Params Exact).timeLimit = Scalar.infinity ∧
      (∀ n, Scalar.isFinite (searched.clock n) = true) ∧ (∀ n, Scalar.isFinite (clock n) = true) ∧
      searched.oracles.binary = .ofSearch ⟨24, by decide, by decide⟩ ∧
      Decomposition.create .standard (searched.decomposition.problem.raised (.real 5)) .standard =
          .ok (searched.raised (.real 5) clock).decomposition ∧
        ∀ start? st, (searched.raised (.real 5) clock).solveAt start? st =
          ((searched.solveAt start? st).1.map (·.raised (.real 5)), (searched.solveAt start? st).2) := by
  intro clock
  have hclock : ∀ n, Scalar.isFinite (searched.clock n) = true := fun _ =>
    Exact.isFinite_iff.2 ⟨0, Exact.zero_literal⟩
  have hclock' : ∀ n, Scalar.isFinite (clock n) = true := fun n => Exact.isFinite_iff.2 ⟨n, rfl⟩
  exact ⟨alwaysOne_create, rfl, hclock, hclock', rfl, solveAt_raised 5 alwaysOne_create rfl hclock hclock' rfl⟩

end Engine

end BinarySplitting
