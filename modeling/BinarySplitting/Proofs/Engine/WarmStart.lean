import BinarySplitting.Linear.Standard
import BinarySplitting.Proofs.Engine.Completion
import BinarySplitting.Proofs.Engine.Agreement
import BinarySplitting.Proofs.Problem.Unconstrained

/-!
# What a run takes from a supplied iterate

From a supplied iterate a run takes the relaxed copy, the multipliers, the penalty within its limits and,
where there is one, the slack. The binary vector and the continuous one have to be acceptable, but then
they have no effect, and neither have the number, the status and the measures: the first pass overwrites
them before it reads them. So starts that agree in the former lead to the same outcome
(`Engine.solveFrom_eq_of_sameStart`), in any arithmetic.
-/

namespace BinarySplitting

variable {α σ : Type} [Scalar α]

/-- Two supplied iterates agree in what a run takes from them. -/
structure Params.SameStart (params : Params α) (a b : Iterate α) : Prop where
  z : a.z = b.z
  y : a.y = b.y
  rho : Scalar.clamp a.rho params.rhoMin params.rhoMax = Scalar.clamp b.rho params.rhoMin params.rhoMax
  s : params.threeBlock = true → a.s = b.s

theorem Vec.eq_of_size_zero {v w : Vec α} (hv : v.size = 0) (hw : w.size = 0) : v = w :=
  Vec.ext (hv.trans hw.symm) fun i hi => absurd hi (by omega)

theorem Params.SameStart.agree {d : Decomposition α} {a b start start' : Iterate α}
    (h : d.params.SameStart a b) (ha : d.normalize a = .ok start) (hb : d.normalize b = .ok start') :
    d.Agree 0 start start' := by
  obtain ⟨hvectors, x, -, rfl⟩ := Decomposition.normalize_ok ha
  obtain ⟨hvectors', x', -, rfl⟩ := Decomposition.normalize_ok hb
  refine ⟨h.z, ?_, h.y, h.rho, ?_, rfl⟩
  · dsimp only
    split
    · next hthree => exact h.s hthree
    · rw [hvectors.s.1, hvectors'.s.1]
  · intro hl
    exact Vec.eq_of_size_zero (hvectors.u.1.trans hl) (hvectors'.u.1.trans hl)

theorem Run.resultAt_of_passes {passes : List (Pass α)} (hpos : 0 < passes.length) (d : Decomposition α)
    (a b : Iterate α) (ending : Ending α) (stop : Stop) :
    (⟨a, passes, ending⟩ : Run α).resultAt d stop = (⟨b, passes, ending⟩ : Run α).resultAt d stop := by
  obtain ⟨p, rest, rfl⟩ := List.exists_cons_of_length_pos hpos
  have hlast : (⟨a, p :: rest, ending⟩ : Run α).last = (⟨b, p :: rest, ending⟩ : Run α).last := by
    simp [Run.last, List.getLast?_cons]
  unfold Run.resultAt Run.selected
  rw [hlast]
  rfl

namespace Engine

/-- **What a run does not take from a supplied iterate has no effect**: two supplied iterates that agree
in the rest lead to the same result, with the same history, or to the same failure. -/
theorem solveFrom_eq_of_sameStart {e : Engine α σ} {kernels : Kernels α} {p : Problem α}
    {params : Params α} {a b start start' : Iterate α}
    (hcreate : Decomposition.create kernels p params = .ok e.decomposition)
    (hfun : e.oracles.AreFunctions) (ha : e.decomposition.normalize a = .ok start)
    (hb : e.decomposition.normalize b = .ok start') (hsame : params.SameStart a b) (st st' : σ) :
    (∃ r, (e.solveFrom a st).1 = .ok r ∧ (e.solveFrom b st').1 = .ok r) ∨
      ∃ failure, (e.solveFrom a st).1 = .error (.failed failure) ∧
        (e.solveFrom b st').1 = .error (.failed failure) := by
  obtain ⟨-, hparams, -, hvalid⟩ := Decomposition.create_ok hcreate
  rw [← hparams] at hsame
  have hstart : e.decomposition.startAt (some a) = .ok start := ha
  have hstart' : e.decomposition.startAt (some b) = .ok start' := hb
  have hmakes : e.Makes start st _ _ _ := run_makes hvalid (Decomposition.startAt_iteration hstart)
  obtain ⟨st₂, hmakes'⟩ := hmakes.of_agree (hsame.agree ha hb) hfun st'
  have hsolve := solveAt_of_makes hvalid hstart hmakes
  have hsolve' := solveAt_of_makes hvalid hstart' hmakes'
  change e.solveFrom a st = _ at hsolve
  change e.solveFrom b st' = _ at hsolve'
  rw [hsolve, hsolve']
  unfold Run.result
  cases hending : (e.run start st).1.ending with
  | failed failure => exact Or.inr ⟨failure, rfl, rfl⟩
  | stopped stop =>
    rw [hending] at hmakes
    exact Or.inl ⟨_, congrArg Except.ok (Run.resultAt_of_passes hmakes.length_pos ..), rfl⟩

/-- Machine numbers: two supplied iterates with other binary vectors, slacks, numbers, status and
measures, and with penalties above the limit. -/
theorem solveFrom_eq_of_sameStart_limit :
    let params : Params Float := { Params.standard with threeBlock := false, maxIterations := 3 }
    let e := Engine.constant (Mat.ofFn 1 1 fun _ _ => 0.0) ⟨#[-1.0]⟩ params ⟨#[1.0]⟩
    let a : Iterate Float := { e.decomposition.initial with y := ⟨#[-2e10]⟩, rho := 1e12 }
    let b : Iterate Float :=
      { a with
        x := ⟨#[1.0]⟩
        s := ⟨#[5.0]⟩
        rho := 1e11
        iteration := 7
        status := .iterating
        measures := ⟨1.0, 2.0, 3.0, 4.0, 5.0⟩ }
    Decomposition.create .standard e.decomposition.problem params = .ok e.decomposition ∧
      e.oracles.AreFunctions ∧ params.SameStart a b ∧
      ∃ start start', e.decomposition.normalize a = .ok start ∧
        e.decomposition.normalize b = .ok start' ∧
        ∃ r, (e.solveFrom a ()).1 = .ok r ∧ (e.solveFrom b ()).1 = .ok r ∧ r.history.size = 3 := by
  intro params e a b
  have hclamp : Scalar.clamp a.rho params.rhoMin params.rhoMax =
      Scalar.clamp b.rho params.rhoMin params.rhoMax := by
    decide +kernel
  have hrun : (e.solveAt (some a) ()).1.toOption.any (·.history.size == 3) = true := by
    decide +kernel
  have haccept : (e.decomposition.startAt (some a)).toOption.isSome = true := by
    decide +kernel
  have haccept' : (e.decomposition.startAt (some b)).toOption.isSome = true := by
    decide +kernel
  have hcreate : Decomposition.create .standard e.decomposition.problem params = .ok e.decomposition :=
    Decomposition.create_of_isOk (by decide +kernel)
  have hfun : e.oracles.AreFunctions := ⟨Oracle.isFunction_ofFunction _, Oracle.isFunction_ofFunction _⟩
  have hsame : params.SameStart a b := ⟨rfl, rfl, hclamp, nofun⟩
  obtain ⟨start, hstart⟩ := exists_start haccept
  obtain ⟨start', hstart'⟩ := exists_start haccept'
  obtain ⟨r, st', hsolve, hsize⟩ := exists_result hrun
  change e.solveFrom a () = _ at hsolve
  refine ⟨hcreate, hfun, hsame, start, start', hstart, hstart', ?_⟩
  obtain ⟨r', hr, hr'⟩ | ⟨failure, hfailed, -⟩ :=
    solveFrom_eq_of_sameStart hcreate hfun hstart hstart' hsame () ()
  · rw [hsolve] at hr
    obtain rfl := Except.ok.inj hr
    exact ⟨r, congrArg Prod.fst hsolve, hr', beq_iff_eq.1 hsize⟩
  · rw [hsolve] at hfailed
    cases hfailed

end Engine

end BinarySplitting
