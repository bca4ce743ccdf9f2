import BinarySplitting.Linear.Standard
import BinarySplitting.Proofs.Engine.Chain
import BinarySplitting.Proofs.Engine.Snap
import BinarySplitting.Proofs.Engine.Start
import BinarySplitting.Proofs.Problem.Unconstrained

/-!
# Engines that never fail

Where every pass is completed, passes can be made in any number (`NeverFails.exists_leads`) and every
accepted start has a result (`NeverFails.exists_result`). Without a convex program it is enough that the
binary oracle gives a vector of the right size with entries near zero and one
(`neverFails_of_answers`); an oracle with one binary answer for every problem does that
(`constant_neverFails`).
-/

namespace BinarySplitting.Engine

variable {α σ : Type} [Scalar α] {e : Engine α σ}

def NeverFails (e : Engine α σ) : Prop :=
  ∀ it st, ∃ next st', e.decomposition.pass e.oracles it st = (.ok next, st')

theorem NeverFails.exists_leads (h : e.NeverFails) (start : Iterate α) (st : σ) (n : ℕ) :
    ∃ passes it st', e.Leads start st passes it st' ∧ passes.length = n := by
  induction n with
  | zero => exact ⟨[], start, st, .refl, rfl⟩
  | succ n ih =>
    obtain ⟨passes, it, st₁, hleads, hlength⟩ := ih
    obtain ⟨next, st₂, hpass⟩ := h it st₁
    exact ⟨_, next, st₂, .snoc hleads hpass, by rw [List.length_append, hlength, List.length_singleton]⟩

/-- A run has a result if from every iterate on its way the next pass is completed. -/
theorem exists_result_of_completed {start? : Option (Iterate α)} {start : Iterate α} {st : σ}
    (hvalid : e.decomposition.params.validate = .ok ())
    (hstart : e.decomposition.startAt start? = .ok start)
    (hcompleted : ∀ passes it st₁, e.Leads start st passes it st₁ →
      ∃ next st₂, e.decomposition.pass e.oracles it st₁ = (.ok next, st₂)) :
    ∃ r st', e.solveAt start? st = (.ok r, st') := by
  have hmakes : e.Makes start st _ _ _ := run_makes hvalid (Decomposition.startAt_iteration hstart)
  rw [solveAt_of_start hstart, Run.result]
  cases hending : (e.run start st).1.ending with
  | stopped stop => exact ⟨_, _, rfl⟩
  | failed failure =>
    rw [hending] at hmakes
    obtain ⟨it, st₁, hleads, hfailed, -⟩ := hmakes.leads_of_failed
    obtain ⟨next, st₂, hpass⟩ := hcompleted _ it st₁ hleads
    cases hfailed.symm.trans hpass

theorem NeverFails.exists_result (h : e.NeverFails) {start? : Option (Iterate α)} {start : Iterate α}
    (hvalid : e.decomposition.params.validate = .ok ())
    (hstart : e.decomposition.startAt start? = .ok start) (st : σ) :
    ∃ r st', e.solveAt start? st = (.ok r, st') :=
  exists_result_of_completed hvalid hstart fun _ it st₁ _ => h it st₁

theorem neverFails_of_answers (hneeds : e.decomposition.needsProgram = false)
    (hanswer : ∀ q st, ∃ v x, (e.oracles.binary q st).1 = .ok v ∧
      v.size = e.decomposition.problem.numBinary ∧ v.snap? = some x) : e.NeverFails := by
  intro it st
  obtain ⟨v, x, hv, hsize, hsnap⟩ := hanswer (e.decomposition.qubo it) st
  have haccept : acceptBinary e.decomposition.problem.numBinary
      (e.oracles.binary (e.decomposition.qubo it) st).1 = .ok x := by
    rw [hv, acceptBinary_of_snap? hsize hsnap]
  exact ⟨_, _, Decomposition.pass_of_updated haccept
    (Decomposition.updateContinuous_of_closed e.oracles.continuous hneeds)⟩

/-! ## A constant answer -/

/-- An engine for an unconstrained problem whose binary oracle has one answer for every problem. -/
def constant (q : Mat α) (a : Vec α) (params : Params α) (answer : Vec α) : Engine α Unit where
  decomposition := .ofProblem (.unconstrained q a) params
  oracles.binary := .ofFunction fun _ => .ok answer
  oracles.continuous := .ofFunction fun program => .ok program.lower
  clock _ := 0.0

theorem constant_neverFails {n : ℕ} {a x : Vec Exact} (q : Mat Exact) (params : Params Exact)
    (ha : a.size = n) (hx : x.IsBinary n) : (constant q a params x).NeverFails := by
  refine neverFails_of_answers (Decomposition.needsProgram_unconstrained q a params) ?_
  intro _ _
  exact ⟨x, x, rfl, hx.1.trans ha.symm, hx.snap?_eq⟩

/-- An engine for one binary variable whose oracle always answers one. -/
noncomputable def alwaysOne : Engine Exact Unit :=
  constant (Mat.ofReal (0 : Matrix (Fin 1) (Fin 1) ℝ)) (Vec.ofReal ![-8000]) .standard (Vec.ofReal ![1])

theorem alwaysOne_params : alwaysOne.decomposition.params = .standard :=
  Decomposition.ofProblem_params _ _

theorem alwaysOne_create :
    Decomposition.create .standard alwaysOne.decomposition.problem .standard =
      .ok alwaysOne.decomposition := by
  have hproblem : alwaysOne.decomposition.problem = .unconstrained _ _ :=
    Decomposition.ofProblem_problem _ _
  rw [hproblem]
  exact Decomposition.create_unconstrained .standard Matrix.isSymm_zero ![-8000] one_pos

theorem alwaysOne_neverFails : alwaysOne.NeverFails :=
  constant_neverFails _ _ (Vec.size_ofReal _) (Vec.isBinary_ofReal fun i => Or.inr (by simp))

end BinarySplitting.Engine
