import Mathlib.Data.Int.Notation
import BinarySplitting.Proofs.Engine.Start

/-!
# What a pass reads

Of an iterate a pass reads the relaxed copy, the slack, the multipliers, the penalty and the number, and
the continuous vector only where there is no continuous variable. So with oracles whose answers depend on
nothing but the subproblem, iterates that agree in these have the same outcome (`Agree.pass_ok`,
`Agree.pass_error`), up to the number of the pass if theirs differ. The state in which the
oracles are asked does not matter either.

A run makes one pass after another, so it agrees with every run from such an iterate: its passes and its
ending are the same, numbered from another number on (`Engine.Makes.shift`).
-/

namespace BinarySplitting

variable {α σ : Type}

/-! ## Answers without memory -/

/-- The state of the oracle has no influence on its answers. -/
def Oracle.IsFunction {ι : Type} (oracle : Oracle ι α σ) : Prop :=
  ∀ i st st', (oracle i st).1 = (oracle i st').1

structure Oracles.AreFunctions (oracles : Oracles α σ) : Prop where
  binary : oracles.binary.IsFunction
  continuous : oracles.continuous.IsFunction

theorem Oracle.isFunction_ofFunction {ι : Type} (f : ι → Except (SolverFailure α) (Vec α)) :
    (Oracle.ofFunction f : Oracle ι α σ).IsFunction :=
  fun _ _ _ => rfl

/-! ## Renumbering

An iterate, and what carries its number, with a number higher by `k`. -/

def Iterate.shift (k : ℤ) (it : Iterate α) : Iterate α := { it with iteration := it.iteration + k }

def Pass.shift (k : ℤ) (p : Pass α) : Pass α := { p with iterate := p.iterate.shift k }

def Record.shift (k : ℤ) (r : Record α) : Record α := { r with iteration := r.iteration + k }

def SubproblemFailure.shift (k : ℤ) (f : SubproblemFailure α) : SubproblemFailure α :=
  { f with iteration := f.iteration + k }

def Ending.shift (k : ℤ) : Ending α → Ending α
  | .stopped stop => .stopped stop
  | .failed failure => .failed (failure.shift k)

@[simp] theorem Iterate.shift_zero (it : Iterate α) : it.shift 0 = it := by
  simp [shift]

@[simp] theorem Pass.shift_zero (p : Pass α) : p.shift 0 = p := by
  simp [shift]

@[simp] theorem SubproblemFailure.shift_zero (f : SubproblemFailure α) : f.shift 0 = f := by
  simp [shift]

@[simp] theorem Ending.shift_zero (ending : Ending α) : ending.shift 0 = ending := by
  cases ending <;> simp [shift]

theorem Pass.record_shift (k : ℤ) (p : Pass α) : (p.shift k).record = p.record.shift k := by
  simp only [record, shift, Iterate.shift, Record.shift, Record.mk.injEq, and_true]
  omega

/-! ## Agreement -/

namespace Decomposition

variable {d : Decomposition α} {a b next : Iterate α} {st st' : σ} {k : ℤ}

/-- Two iterates agree in what a pass reads, and the number of the second is higher by `k`. -/
structure Agree (d : Decomposition α) (k : ℤ) (a b : Iterate α) : Prop where
  z : a.z = b.z
  s : a.s = b.s
  y : a.y = b.y
  rho : a.rho = b.rho
  /-- Where there are continuous variables, a pass sets the vector. -/
  u : d.problem.numContinuous = 0 → a.u = b.u
  iteration : b.iteration = a.iteration + k

/-- Two iterates differ in nothing but their numbers, status and measures. -/
structure SameVectors (a b : Iterate α) : Prop where
  x : a.x = b.x
  z : a.z = b.z
  u : a.u = b.u
  s : a.s = b.s
  y : a.y = b.y
  rho : a.rho = b.rho

theorem Agree.refl (d : Decomposition α) (it : Iterate α) : d.Agree 0 it it :=
  ⟨rfl, rfl, rfl, rfl, fun _ => rfl, (Int.add_zero _).symm⟩

theorem Agree.shift (d : Decomposition α) (k : ℤ) (it : Iterate α) : d.Agree k it (it.shift k) :=
  ⟨rfl, rfl, rfl, rfl, fun _ => rfl, rfl⟩

variable [Scalar α]

theorem Agree.qubo (h : d.Agree k a b) : d.qubo a = d.qubo b := by
  unfold Decomposition.qubo
  rw [h.z, h.s, h.y, h.rho]

theorem Agree.program (h : d.Agree k a b) (x : Vec α) :
    d.program (d.relax { a with x }) = d.program (d.relax { b with x }) := by
  rw [program_relax, program_relax]
  unfold Decomposition.program
  rw [h.s, h.y, h.rho]

theorem Agree.relax_z (h : d.Agree k a b) (x : Vec α) :
    (d.relax { a with x }).z = (d.relax { b with x }).z := by
  unfold relax
  split
  · unfold consensus
    rw [h.s, h.y, h.rho]
  · exact h.z

theorem relax_eq (it : Iterate α) : d.relax it = { it with z := (d.relax it).z } := by
  unfold relax
  split <;> rfl

section continuous

variable {oracle : Oracle (Program α) α σ} (h : d.Agree k a b) (hfun : oracle.IsFunction) (x : Vec α)

include h

theorem Agree.relax (hu : a.u = b.u) : SameVectors (d.relax { a with x }) (d.relax { b with x }) := by
  have hz := h.relax_z x
  rw [relax_eq { a with x }, relax_eq { b with x }, hz]
  exact ⟨rfl, rfl, hu, h.s, h.y, h.rho⟩

theorem Agree.place (w : Vec α) :
    SameVectors (d.place (d.relax { a with x }) w) (d.place (d.relax { b with x }) w) := by
  have hz := h.relax_z x
  rw [relax_eq { a with x }, relax_eq { b with x }, hz]
  unfold Decomposition.place
  refine ⟨rfl, rfl, ?_, h.s, h.y, h.rho⟩
  dsimp only
  split
  · next hl => exact h.u hl
  · rfl

include hfun

theorem Agree.updateContinuous_ok {after : Iterate α} (st₂ : σ)
    (hupdate : d.updateContinuous oracle { a with x } st = (.ok after, st')) :
    ∃ after' st₂', d.updateContinuous oracle { b with x } st₂ = (.ok after', st₂') ∧
      SameVectors after after' := by
  obtain ⟨hneeds, rfl, -⟩ | ⟨hneeds, w, hanswer, hsize, hfin, rfl⟩ :=
    Decomposition.updateContinuous_ok hupdate
  · have hl := (needsProgram_eq_false_iff.1 hneeds).2
    exact ⟨_, _, updateContinuous_of_closed oracle hneeds, h.relax x (h.u hl)⟩
  · have hanswer' : (oracle (d.program (d.relax { b with x })) st₂).1 = .ok w := by
      rw [← h.program x, hfun _ st₂ st, hanswer]
    exact ⟨_, _, Prod.ext (updateContinuous_of_answer hneeds hanswer' hsize hfin) rfl, h.place x w⟩

theorem Agree.updateContinuous_error {fault : Fault α} (st₂ : σ)
    (hupdate : d.updateContinuous oracle { a with x } st = (.error fault, st')) :
    ∃ st₂', d.updateContinuous oracle { b with x } st₂ = (.error fault, st₂') := by
  obtain ⟨hneeds, hfault⟩ := Decomposition.updateContinuous_error hupdate
  refine ⟨(d.updateContinuous oracle { b with x } st₂).2, Prod.ext ?_ rfl⟩
  rw [updateContinuous_of_program oracle hneeds, ← h.program x, hfun _ st₂ st, hfault]
  rfl

end continuous

theorem SameVectors.finish (h : SameVectors a b) (zBefore : Vec α) :
    d.finish zBefore b = { d.finish zBefore a with iteration := b.iteration + 1 } := by
  obtain ⟨x, z, u, s, y, rho, iteration, status, measures⟩ := a
  obtain ⟨rfl, rfl, rfl, rfl, rfl, rfl⟩ := h
  unfold Decomposition.finish
  split <;> rfl

section pass

variable {oracles : Oracles α σ} (h : d.Agree k a b) (hfun : oracles.AreFunctions)

include h hfun

/-- **Iterates that agree lead to the same iterate**, in any states of the oracles. -/
theorem Agree.pass_ok (st₂ : σ) (hpass : d.pass oracles a st = (.ok next, st')) :
    ∃ st₂', d.pass oracles b st₂ = (.ok (next.shift k), st₂') := by
  obtain ⟨x, after, haccept, hupdate, rfl⟩ := Decomposition.pass_ok hpass
  -- The binary problems are equal, so the same vector is accepted; from there on only numbers differ.
  rw [h.qubo, hfun.binary _ st st₂] at haccept
  obtain ⟨after', st₂', hupdate', hsame⟩ := h.updateContinuous_ok hfun.continuous x _ hupdate
  refine ⟨st₂', ?_⟩
  obtain ⟨z, u, rfl⟩ := updateContinuous_frame hupdate
  obtain ⟨z', u', rfl⟩ := updateContinuous_frame hupdate'
  rw [pass_of_updated haccept hupdate', hsame.finish, ← h.z]
  have hnumber : b.iteration + 1 = a.iteration + 1 + k := by
    rw [h.iteration]
    omega
  simp [Iterate.shift, hnumber]

theorem Agree.pass_error {failure : SubproblemFailure α} (st₂ : σ)
    (hpass : d.pass oracles a st = (.error failure, st')) :
    ∃ st₂', d.pass oracles b st₂ = (.error (failure.shift k), st₂') := by
  obtain ⟨fault, haccept, rfl, -⟩ | ⟨x, fault, haccept, hupdate, rfl⟩ := Decomposition.pass_error hpass
  · rw [h.qubo, hfun.binary _ st st₂] at haccept
    exact ⟨_, by rw [pass_of_refused haccept, h.iteration]; rfl⟩
  · rw [h.qubo, hfun.binary _ st st₂] at haccept
    obtain ⟨st₂', hupdate'⟩ := h.updateContinuous_error hfun.continuous x _ hupdate
    exact ⟨st₂', by rw [pass_of_fault haccept hupdate', h.iteration]; rfl⟩

end pass

end Decomposition

/-! ## Runs -/

theorem Params.Admissible.withLimit [Scalar α] {params : Params α} (h : params.Admissible) {m : ℤ} (hm : 0 < m) :
    ({ params with maxIterations := m } : Params α).Admissible :=
  { h with maxIterations_pos := hm }

namespace Engine

/-- The engine with another limit on the number of passes. -/
def withLimit (e : Engine α σ) (limit : ℤ) : Engine α σ :=
  { e with decomposition.params.maxIterations := limit }

variable [Scalar α]

variable {e : Engine α σ} {a b it : Iterate α} {st st' : σ} {passes : List (Pass α)} {ending : Ending α}
  {k : ℤ}

theorem pass_withLimit (e : Engine α σ) (limit : ℤ) (it : Iterate α) (st : σ) :
    (e.withLimit limit).decomposition.pass (e.withLimit limit).oracles it st =
      e.decomposition.pass e.oracles it st :=
  rfl

theorem create_withLimit {kernels : Kernels α} {p : Problem α} {params : Params α}
    (hcreate : Decomposition.create kernels p params = .ok e.decomposition) {m : ℤ} (hm : 0 < m) :
    Decomposition.create kernels p { params with maxIterations := m } =
      .ok (e.withLimit m).decomposition := by
  obtain ⟨haccepted, hvalid, hd⟩ := Decomposition.create_eq_ok_iff.1 hcreate
  have hadmissible := (Params.validate_ok_iff.1 hvalid).withLimit hm
  refine Decomposition.create_eq_ok_iff.2 ⟨haccepted, Params.validate_ok_iff.2 hadmissible, ?_⟩
  unfold withLimit
  rw [hd]
  unfold Decomposition.ofProblem
  dsimp only
  split <;> rfl

/-- **A run from an iterate that agrees makes the same passes**, if the reasons to stop are the same at
iterates that differ in their number. -/
theorem Makes.shift (h : e.Makes a st passes ending st') (hagree : e.decomposition.Agree k a b)
    (hfun : e.oracles.AreFunctions) (limit : ℤ)
    (hstop : ∀ it, (e.withLimit limit).decomposition.params.stop? e.clock (it.shift k) =
      e.decomposition.params.stop? e.clock it) (st₂ : σ) :
    ∃ st₂', (e.withLimit limit).Makes b st₂ (passes.map (Pass.shift k)) (ending.shift k) st₂' := by
  induction h generalizing b st₂ with
  | failed hpass =>
    obtain ⟨st₂', hpass'⟩ := hagree.pass_error hfun st₂ hpass
    exact ⟨st₂', .failed hpass'⟩
  | stopped hpass hstopped =>
    obtain ⟨st₂', hpass'⟩ := hagree.pass_ok hfun st₂ hpass
    rw [List.map_singleton, Pass.shift, hagree.rho]
    exact ⟨st₂', .stopped hpass' ((hstop _).trans hstopped)⟩
  | next hpass hstopped _ ih =>
    obtain ⟨st₁', hpass'⟩ := hagree.pass_ok hfun st₂ hpass
    obtain ⟨st₂', hrest⟩ := ih (.shift _ _ _) st₁'
    rw [List.map_cons, Pass.shift, hagree.rho]
    exact ⟨st₂', .next hpass' ((hstop _).trans hstopped) hrest⟩

theorem Makes.of_agree (h : e.Makes a st passes ending st') (hagree : e.decomposition.Agree 0 a b)
    (hfun : e.oracles.AreFunctions) (st₂ : σ) : ∃ st₂', e.Makes b st₂ passes ending st₂' := by
  obtain ⟨st₂', hshift⟩ := h.shift hagree hfun e.decomposition.params.maxIterations
    (fun it => by rw [Iterate.shift_zero]; rfl) st₂
  rw [List.map_id'' Pass.shift_zero, Ending.shift_zero] at hshift
  exact ⟨st₂', hshift⟩

section state

variable (hfun : e.oracles.AreFunctions)

include hfun

theorem pass_eq_of_areFunctions (it : Iterate α) (st st' : σ) :
    (e.decomposition.pass e.oracles it st).1 = (e.decomposition.pass e.oracles it st').1 := by
  have hagree : e.decomposition.Agree 0 it it := .refl _ _
  rcases hpass : e.decomposition.pass e.oracles it st with ⟨failure | next, st₁⟩
  · obtain ⟨st₂, hpass'⟩ := hagree.pass_error hfun st' hpass
    rw [hpass', SubproblemFailure.shift_zero]
  · obtain ⟨st₂, hpass'⟩ := hagree.pass_ok hfun st' hpass
    rw [hpass', Iterate.shift_zero]

theorem solveAt_eq_of_areFunctions {start?₁ start?₂ : Option (Iterate α)} {start : Iterate α}
    (hvalid : e.decomposition.params.validate = .ok ())
    (hstart₁ : e.decomposition.startAt start?₁ = .ok start)
    (hstart₂ : e.decomposition.startAt start?₂ = .ok start) (st st' : σ) :
    (e.solveAt start?₁ st).1 = (e.solveAt start?₂ st').1 := by
  have hmakes : e.Makes start st _ _ _ := run_makes hvalid (Decomposition.startAt_iteration hstart₁)
  obtain ⟨st₂, hmakes'⟩ := hmakes.of_agree (.refl _ _) hfun st'
  rw [solveAt_of_makes hvalid hstart₁ hmakes, solveAt_of_makes hvalid hstart₂ hmakes']

end state

end Engine

end BinarySplitting
