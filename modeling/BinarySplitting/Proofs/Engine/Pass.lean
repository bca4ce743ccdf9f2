import Mathlib.Data.Nat.Notation
import Mathlib.Logic.Basic
import BinarySplitting.Engine.Pass

/-!
# What a pass does

A pass either completes or fails in one of its two blocks (`Decomposition.pass_ok`,
`Decomposition.pass_error`), and of the oracles only the answers that were accepted enter it
(`acceptBinary_ok`, `acceptContinuous_ok`). What is said of runs later rests on these inversions;
the pass itself is not opened again.

The end of a pass keeps the vectors of the two blocks, counts the pass and measures the new point
(`Decomposition.finish_objective` and its neighbours).
-/

namespace BinarySplitting

variable {α σ : Type} [Scalar α]

theorem runState_bind {β γ : Type} (m : StateM σ β) (f : β → StateM σ γ) (st : σ) :
    (m >>= f) st = f (m st).1 (m st).2 := rfl

/-! ## Accepted answers -/

section answers

variable {n : ℕ} {answer : Except (SolverFailure α) (Vec α)}

theorem acceptBinary_ok {x : Vec α} (h : acceptBinary n answer = .ok x) :
    ∃ v, answer = .ok v ∧ v.size = n ∧ v.snap? = some x := by
  rcases answer with failure | v
  · simp [acceptBinary] at h
  · simp only [acceptBinary] at h
    split at h
    · simp at h
    · next hsize =>
      split at h
      · next hsnap => exact ⟨v, rfl, not_not.1 hsize, hsnap.trans (congrArg some (Except.ok.inj h))⟩
      · simp at h

theorem acceptContinuous_ok {w : Vec α} (h : acceptContinuous n answer = .ok w) :
    answer = .ok w ∧ w.size = n ∧ w.allFinite = true := by
  rcases answer with failure | v
  · simp [acceptContinuous] at h
  · simp only [acceptContinuous] at h
    split at h
    · simp at h
    · next hsize =>
      split at h
      · next hfin =>
        obtain rfl := Except.ok.inj h
        exact ⟨rfl, not_not.1 hsize, hfin⟩
      · simp at h

theorem acceptContinuous_of_finite {w : Vec α} (hsize : w.size = n) (hfin : w.allFinite = true) :
    acceptContinuous n (.ok w) = .ok w := by
  simp only [acceptContinuous]
  rw [if_neg (not_not.2 hsize), if_pos hfin]

theorem acceptBinary_of_snap? {v x : Vec α} (hsize : v.size = n) (hsnap : v.snap? = some x) :
    acceptBinary n (.ok v) = .ok x := by
  simp only [acceptBinary]
  rw [if_neg (not_not.2 hsize), hsnap]

end answers

namespace Decomposition

variable {d : Decomposition α} {it next : Iterate α} {st st' : σ}

/-! ## The continuous block -/

omit [Scalar α] in
theorem needsProgram_eq_false_iff :
    d.needsProgram = false ↔ d.closedForm = true ∧ d.problem.numContinuous = 0 := by
  simp [needsProgram]

theorem program_relax : d.program (d.relax it) = d.program it := by
  unfold relax
  split <;> rfl

section continuous

variable (oracle : Oracle (Program α) α σ)

theorem updateContinuous_of_closed (h : d.needsProgram = false) :
    d.updateContinuous oracle it st = (.ok (d.relax it), st) := by
  unfold updateContinuous
  simp only [h]
  rfl

theorem updateContinuous_of_program (h : d.needsProgram = true) :
    d.updateContinuous oracle it st =
      ((acceptContinuous (d.numRelaxed + d.problem.numContinuous)
          (oracle (d.program (d.relax it)) st).1).map (d.place (d.relax it)),
        (oracle (d.program (d.relax it)) st).2) := by
  unfold updateContinuous
  simp only [h]
  rfl

variable {oracle}

theorem updateContinuous_of_answer {w : Vec α} (hneeds : d.needsProgram = true)
    (hanswer : (oracle (d.program (d.relax it)) st).1 = .ok w)
    (hsize : w.size = d.numRelaxed + d.problem.numContinuous) (hfin : w.allFinite = true) :
    (d.updateContinuous oracle it st).1 = .ok (d.place (d.relax it) w) := by
  rw [updateContinuous_of_program _ hneeds, hanswer, acceptContinuous_of_finite hsize hfin]
  rfl

theorem updateContinuous_ok {updated : Iterate α}
    (h : d.updateContinuous oracle it st = (.ok updated, st')) :
    (d.needsProgram = false ∧ updated = d.relax it ∧ st' = st) ∨
    (d.needsProgram = true ∧ ∃ w, oracle (d.program (d.relax it)) st = (.ok w, st') ∧
      w.size = d.numRelaxed + d.problem.numContinuous ∧ w.allFinite = true ∧
      updated = d.place (d.relax it) w) := by
  cases hneeds : d.needsProgram with
  | false =>
    rw [updateContinuous_of_closed oracle hneeds] at h
    obtain ⟨hupdated, hst⟩ := Prod.mk.inj h
    exact Or.inl ⟨rfl, (Except.ok.inj hupdated).symm, hst.symm⟩
  | true =>
    rw [updateContinuous_of_program oracle hneeds] at h
    obtain ⟨hanswer, hst⟩ := Prod.mk.inj h
    cases haccept : acceptContinuous (d.numRelaxed + d.problem.numContinuous)
        (oracle (d.program (d.relax it)) st).1 with
    | error fault =>
      rw [haccept] at hanswer
      simp [Except.map] at hanswer
    | ok w =>
      rw [haccept] at hanswer
      obtain ⟨hw, hsize, hfin⟩ := acceptContinuous_ok haccept
      exact Or.inr ⟨rfl, w, Prod.ext hw hst, hsize, hfin, (Except.ok.inj hanswer).symm⟩

theorem updateContinuous_error {fault : Fault α}
    (h : d.updateContinuous oracle it st = (.error fault, st')) :
    d.needsProgram = true ∧
      acceptContinuous (d.numRelaxed + d.problem.numContinuous)
        (oracle (d.program (d.relax it)) st).1 = .error fault := by
  cases hneeds : d.needsProgram with
  | false =>
    rw [updateContinuous_of_closed oracle hneeds] at h
    cases h
  | true =>
    rw [updateContinuous_of_program oracle hneeds] at h
    obtain ⟨hanswer, -⟩ := Prod.mk.inj h
    cases haccept : acceptContinuous (d.numRelaxed + d.problem.numContinuous)
        (oracle (d.program (d.relax it)) st).1 with
    | error refusal =>
      rw [haccept] at hanswer
      exact ⟨rfl, congrArg Except.error (Except.error.inj hanswer)⟩
    | ok w =>
      rw [haccept] at hanswer
      cases hanswer

@[simp] theorem relax_u : (d.relax it).u = it.u := by
  unfold relax
  split <;> rfl

theorem updateContinuous_frame {updated : Iterate α}
    (h : d.updateContinuous oracle it st = (.ok updated, st')) :
    ∃ z u, updated = { it with z, u } := by
  obtain ⟨-, rfl, -⟩ | ⟨-, w, -, -, -, rfl⟩ := updateContinuous_ok h
  · unfold relax
    split
    · exact ⟨_, _, rfl⟩
    · exact ⟨_, _, rfl⟩
  · unfold place relax
    split
    · exact ⟨_, _, rfl⟩
    · exact ⟨_, _, rfl⟩

theorem updateContinuous_size_u {updated : Iterate α}
    (hsize : it.u.size = d.problem.numContinuous)
    (h : d.updateContinuous oracle it st = (.ok updated, st')) :
    updated.u.size = d.problem.numContinuous := by
  obtain ⟨-, rfl, -⟩ | ⟨-, w, -, -, -, rfl⟩ := updateContinuous_ok h
  · rw [relax_u, hsize]
  · simp only [place, relax_u]
    split
    · exact hsize
    · exact Vec.size_slice _ _ _

end continuous

/-! ## The end of a pass -/

section finish

variable (d) (zBefore : Vec α) (it)

@[simp] theorem finish_x : (d.finish zBefore it).x = it.x := by
  unfold finish
  split <;> rfl

@[simp] theorem finish_z : (d.finish zBefore it).z = it.z := by
  unfold finish
  split <;> rfl

@[simp] theorem finish_u : (d.finish zBefore it).u = it.u := by
  unfold finish
  split <;> rfl

theorem finish_s :
    (d.finish zBefore it).s = if d.params.threeBlock then d.slack it else it.s := by
  unfold finish
  split <;> rfl

theorem finish_y : (d.finish zBefore it).y =
    it.y + it.rho • (it.x - it.z - (d.finish zBefore it).s) := by
  unfold finish
  split <;> rfl

@[simp] theorem finish_iteration : (d.finish zBefore it).iteration = it.iteration + 1 := by
  unfold finish
  split <;> rfl

theorem finish_primal : (d.finish zBefore it).measures.primal =
    (it.x - it.z - (d.finish zBefore it).s).norm := by
  unfold finish
  split <;> rfl

theorem finish_dual : (d.finish zBefore it).measures.dual = it.rho * (it.z - zBefore).norm := by
  unfold finish
  split <;> rfl

theorem finish_rho : (d.finish zBefore it).rho =
    nextRho d.params it.rho (d.finish zBefore it).measures.primal
      (d.finish zBefore it).measures.dual := by
  unfold finish
  split <;> rfl

theorem finish_objective :
    (d.finish zBefore it).measures.objective = d.problem.objective it.x it.u := by
  unfold finish
  split <;> rfl

theorem finish_violation :
    (d.finish zBefore it).measures.violation = d.problem.violation it.x it.u := by
  unfold finish
  split <;> rfl

end finish

/-! ## The pass -/

section pass

variable {oracles : Oracles α σ} {x : Vec α} {fault : Fault α}

theorem pass_of_refused
    (haccept : acceptBinary d.problem.numBinary (oracles.binary (d.qubo it) st).1 = .error fault) :
    d.pass oracles it st =
      (.error ⟨it.iteration, .binary, fault⟩, (oracles.binary (d.qubo it) st).2) := by
  unfold pass
  rw [runState_bind, haccept]
  rfl

theorem pass_of_fault
    (haccept : acceptBinary d.problem.numBinary (oracles.binary (d.qubo it) st).1 = .ok x)
    (hupdate : d.updateContinuous oracles.continuous { it with x } (oracles.binary (d.qubo it) st).2 =
      (.error fault, st')) :
    d.pass oracles it st = (.error ⟨it.iteration, .continuous, fault⟩, st') := by
  unfold pass
  rw [runState_bind, haccept]
  dsimp only
  rw [runState_bind, hupdate]
  rfl

theorem pass_of_updated {updated : Iterate α}
    (haccept : acceptBinary d.problem.numBinary (oracles.binary (d.qubo it) st).1 = .ok x)
    (hupdate : d.updateContinuous oracles.continuous { it with x } (oracles.binary (d.qubo it) st).2 =
      (.ok updated, st')) :
    d.pass oracles it st = (.ok (d.finish it.z updated), st') := by
  unfold pass
  rw [runState_bind, haccept]
  dsimp only
  rw [runState_bind, hupdate]
  rfl

theorem pass_ok (h : d.pass oracles it st = (.ok next, st')) :
    ∃ x updated,
      acceptBinary d.problem.numBinary (oracles.binary (d.qubo it) st).1 = .ok x ∧
      d.updateContinuous oracles.continuous { it with x } (oracles.binary (d.qubo it) st).2 =
        (.ok updated, st') ∧
      next = d.finish it.z updated := by
  cases haccept : acceptBinary d.problem.numBinary (oracles.binary (d.qubo it) st).1 with
  | error fault =>
    rw [pass_of_refused haccept] at h
    cases h
  | ok x =>
    rcases hupdate : d.updateContinuous oracles.continuous { it with x }
      (oracles.binary (d.qubo it) st).2 with ⟨fault | updated, st''⟩
    · rw [pass_of_fault haccept hupdate] at h
      cases h
    · rw [pass_of_updated haccept hupdate] at h
      obtain ⟨hnext, hst⟩ := Prod.mk.inj h
      subst hst
      exact ⟨x, updated, rfl, hupdate, (Except.ok.inj hnext).symm⟩

theorem pass_error {failure : SubproblemFailure α}
    (h : d.pass oracles it st = (.error failure, st')) :
    (∃ fault, acceptBinary d.problem.numBinary (oracles.binary (d.qubo it) st).1 = .error fault ∧
      failure = ⟨it.iteration, .binary, fault⟩ ∧ st' = (oracles.binary (d.qubo it) st).2) ∨
    (∃ x fault, acceptBinary d.problem.numBinary (oracles.binary (d.qubo it) st).1 = .ok x ∧
      d.updateContinuous oracles.continuous { it with x } (oracles.binary (d.qubo it) st).2 =
        (.error fault, st') ∧
      failure = ⟨it.iteration, .continuous, fault⟩) := by
  cases haccept : acceptBinary d.problem.numBinary (oracles.binary (d.qubo it) st).1 with
  | error fault =>
    rw [pass_of_refused haccept] at h
    obtain ⟨hfailure, hst⟩ := Prod.mk.inj h
    exact Or.inl ⟨fault, rfl, (Except.error.inj hfailure).symm, hst.symm⟩
  | ok x =>
    rcases hupdate : d.updateContinuous oracles.continuous { it with x }
      (oracles.binary (d.qubo it) st).2 with ⟨fault | updated, st''⟩
    · rw [pass_of_fault haccept hupdate] at h
      obtain ⟨hfailure, hst⟩ := Prod.mk.inj h
      subst hst
      exact Or.inr ⟨x, fault, rfl, hupdate, (Except.error.inj hfailure).symm⟩
    · rw [pass_of_updated haccept hupdate] at h
      cases h

theorem pass_iteration (h : d.pass oracles it st = (.ok next, st')) :
    next.iteration = it.iteration + 1 := by
  obtain ⟨x, updated, -, hupdate, rfl⟩ := pass_ok h
  obtain ⟨z, u, rfl⟩ := updateContinuous_frame hupdate
  rw [finish_iteration]

theorem pass_primal (h : d.pass oracles it st = (.ok next, st')) :
    next.measures.primal = (next.x - next.z - next.s).norm := by
  obtain ⟨x, updated, -, -, rfl⟩ := pass_ok h
  rw [finish_primal, finish_x, finish_z]

theorem pass_rho (h : d.pass oracles it st = (.ok next, st')) :
    next.rho = nextRho d.params it.rho next.measures.primal next.measures.dual := by
  obtain ⟨x, updated, -, hupdate, rfl⟩ := pass_ok h
  obtain ⟨z, u, rfl⟩ := updateContinuous_frame hupdate
  rw [finish_rho]

theorem pass_objective (h : d.pass oracles it st = (.ok next, st')) :
    next.measures.objective = d.problem.objective next.x next.u := by
  obtain ⟨x, updated, -, -, rfl⟩ := pass_ok h
  rw [finish_objective, finish_x, finish_u]

theorem pass_violation (h : d.pass oracles it st = (.ok next, st')) :
    next.measures.violation = d.problem.violation next.x next.u := by
  obtain ⟨x, updated, -, -, rfl⟩ := pass_ok h
  rw [finish_violation, finish_x, finish_u]

theorem pass_size_u (hsize : it.u.size = d.problem.numContinuous)
    (h : d.pass oracles it st = (.ok next, st')) : next.u.size = d.problem.numContinuous := by
  obtain ⟨x, updated, -, hupdate, rfl⟩ := pass_ok h
  have hsize' : ({ it with x } : Iterate α).u.size = d.problem.numContinuous := hsize
  rw [finish_u, updateContinuous_size_u hsize' hupdate]

end pass

end Decomposition

end BinarySplitting
