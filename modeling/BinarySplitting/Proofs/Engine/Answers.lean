import BinarySplitting.Proofs.Engine.Calls
import BinarySplitting.Proofs.Engine.Snap

/-!
# Answers that cannot be used

An oracle may fail, or answer with a vector of another size or with entries that do not belong there
(`IsFaulty`). Such an answer is refused, in either block, and no other is (`acceptBinary_error_iff`,
`acceptContinuous_error_iff`). So a pass fails exactly when one of its answers is faulty: in the
binary block if the first is, and otherwise in the continuous block (`Engine.pass_refused`,
`Engine.pass_not_refused`).
-/

namespace BinarySplitting

open Oracles

variable {α σ : Type} [Scalar α]

/-! ## Single answers -/

def IsNearBinary (a : α) : Prop :=
  Scalar.abs a ≤ snapTolerance ∨ Scalar.abs (a - 1.0) ≤ snapTolerance

/-- An oracle failed, or its vector has another size or an entry that is not allowed. -/
def IsFaulty (n : ℕ) (allowed : α → Prop) : Except (SolverFailure α) (Vec α) → Prop
  | .error _ => True
  | .ok v => v.size ≠ n ∨ ∃ i < v.size, ¬ allowed (v i)

/-- The kind of failure that a faulty answer amounts to: the oracle's own if it failed. -/
def refusalKind : Except (SolverFailure α) (Vec α) → FailureKind
  | .error failure => failure.kind
  | .ok _ => .failed

theorem snap?_eq_none_iff {a : α} : snap? a = none ↔ ¬ IsNearBinary a := by
  unfold snap? IsNearBinary
  split
  · simp [*]
  · split <;> simp [*]

theorem mapM_eq_none_iff {β : Type} {f : β → Option β} {entries : List β} :
    entries.mapM f = none ↔ ∃ a ∈ entries, f a = none := by
  induction entries with
  | nil => simp [pure]
  | cons a rest ih =>
    rw [List.mapM_cons]
    simp only [List.mem_cons, exists_eq_or_imp, ← ih]
    cases f a with
    | none => simp
    | some b => cases rest.mapM f <;> simp [pure]

theorem Vec.snap?_eq_none_iff {v : Vec α} : v.snap? = none ↔ ∃ i < v.size, ¬ IsNearBinary (v i) := by
  unfold Vec.snap?
  rw [Option.map_eq_none_iff, mapM_eq_none_iff]
  constructor
  · rintro ⟨a, ha, hnone⟩
    obtain ⟨i, hi, rfl⟩ := Vec.mem_toList.1 ha
    exact ⟨i, hi, BinarySplitting.snap?_eq_none_iff.1 hnone⟩
  · rintro ⟨i, hi, hfar⟩
    exact ⟨v i, Vec.mem_toList.2 ⟨i, hi, rfl⟩, BinarySplitting.snap?_eq_none_iff.2 hfar⟩

section answers

variable {n : ℕ} {answer : Except (SolverFailure α) (Vec α)} {fault : Fault α}

theorem acceptBinary_error_iff :
    (∃ fault, acceptBinary n answer = .error fault) ↔ IsFaulty n IsNearBinary answer := by
  rcases answer with failure | v
  · simp [acceptBinary, IsFaulty]
  · unfold acceptBinary IsFaulty
    dsimp only
    rw [← Vec.snap?_eq_none_iff]
    by_cases hsize : v.size = n
    · rw [if_neg (not_not.2 hsize)]
      cases v.snap? <;> simp [hsize]
    · rw [if_pos hsize]
      simp [hsize]

theorem acceptContinuous_error_iff :
    (∃ fault, acceptContinuous n answer = .error fault) ↔
      IsFaulty n (Scalar.isFinite · = true) answer := by
  rcases answer with failure | v
  · simp [acceptContinuous, IsFaulty]
  · unfold acceptContinuous IsFaulty
    dsimp only
    have hentries : (∃ i < v.size, ¬ Scalar.isFinite (v i) = true) ↔ ¬ v.allFinite = true := by
      rw [Vec.allFinite_iff, not_forall]
      exact exists_congr fun i => Classical.not_imp.symm
    rw [hentries]
    by_cases hsize : v.size = n
    · rw [if_neg (not_not.2 hsize)]
      cases v.allFinite <;> simp [hsize]
    · rw [if_pos hsize]
      simp [hsize]

theorem acceptBinary_kind (h : acceptBinary n answer = .error fault) :
    fault.kind = refusalKind answer := by
  rcases answer with failure | v
  · obtain rfl := Except.error.inj h
    rfl
  · unfold acceptBinary at h
    dsimp only at h
    split at h
    · obtain rfl := Except.error.inj h
      rfl
    · split at h
      · cases h
      · obtain rfl := Except.error.inj h
        rfl

theorem acceptContinuous_kind (h : acceptContinuous n answer = .error fault) :
    fault.kind = refusalKind answer := by
  rcases answer with failure | v
  · obtain rfl := Except.error.inj h
    rfl
  · unfold acceptContinuous at h
    dsimp only at h
    split at h
    · obtain rfl := Except.error.inj h
      rfl
    · split at h
      · cases h
      · obtain rfl := Except.error.inj h
        rfl

end answers

/-! ## The answers of a pass -/

namespace Engine

def binaryAnswer (e : Engine α σ) (it : Iterate α) (st : σ) : Except (SolverFailure α) (Vec α) :=
  (e.oracles.binary (e.decomposition.qubo it) st).1

/-- The answer to the convex program of a pass with the binary vector `x`. -/
def continuousAnswer (e : Engine α σ) (it : Iterate α) (st : σ) (x : Vec α) :
    Except (SolverFailure α) (Vec α) :=
  (e.oracles.continuous (e.decomposition.program (e.decomposition.relax { it with x }))
    (e.oracles.binary (e.decomposition.qubo it) st).2).1

/-- The answer to the binary problem of a pass is faulty. -/
def RefusesBinary (e : Engine α σ) (it : Iterate α) (st : σ) : Prop :=
  IsFaulty e.decomposition.problem.numBinary IsNearBinary (e.binaryAnswer it st)

/-- The binary vector of a pass is accepted, and the answer to its convex program is faulty. -/
def RefusesContinuous (e : Engine α σ) (it : Iterate α) (st : σ) : Prop :=
  ∃ x, acceptBinary e.decomposition.problem.numBinary (e.binaryAnswer it st) = .ok x ∧
    e.decomposition.needsProgram = true ∧
    IsFaulty (e.decomposition.numRelaxed + e.decomposition.problem.numContinuous)
      (Scalar.isFinite · = true) (e.continuousAnswer it st x)

variable {e : Engine α σ} {it next : Iterate α} {st st' : σ}

theorem not_refusesBinary {x : Vec α}
    (haccept : acceptBinary e.decomposition.problem.numBinary (e.binaryAnswer it st) = .ok x) :
    ¬ e.RefusesBinary it st := by
  intro hfaulty
  obtain ⟨fault, hfault⟩ := acceptBinary_error_iff.2 hfaulty
  cases haccept.symm.trans hfault

theorem RefusesContinuous.not_refusesBinary (h : e.RefusesContinuous it st) :
    ¬ e.RefusesBinary it st := by
  obtain ⟨x, haccept, -⟩ := h
  exact Engine.not_refusesBinary haccept

/-- A pass that fails names the block whose answer was refused, and keeps the kind of failure. -/
theorem pass_refused {failure : SubproblemFailure α}
    (h : e.decomposition.pass e.oracles it st = (.error failure, st')) :
    (failure.block = .binary ∧ e.RefusesBinary it st ∧
      failure.kind = refusalKind (e.binaryAnswer it st)) ∨
    (failure.block = .continuous ∧ e.RefusesContinuous it st ∧
      ∀ x, acceptBinary e.decomposition.problem.numBinary (e.binaryAnswer it st) = .ok x →
        failure.kind = refusalKind (e.continuousAnswer it st x)) := by
  obtain ⟨fault, haccept, rfl, -⟩ | ⟨x, fault, haccept, hupdate, rfl⟩ := Decomposition.pass_error h
  · exact Or.inl ⟨rfl, acceptBinary_error_iff.1 ⟨fault, haccept⟩, acceptBinary_kind haccept⟩
  · obtain ⟨hneeds, hfault⟩ := Decomposition.updateContinuous_error hupdate
    refine Or.inr ⟨rfl, ⟨x, haccept, hneeds, acceptContinuous_error_iff.1 ⟨fault, hfault⟩⟩, ?_⟩
    intro x' haccept'
    obtain rfl := Except.ok.inj (haccept.symm.trans haccept')
    exact acceptContinuous_kind hfault

theorem pass_not_refused (h : e.decomposition.pass e.oracles it st = (.ok next, st')) :
    ¬ e.RefusesBinary it st ∧ ¬ e.RefusesContinuous it st := by
  obtain ⟨x, updated, haccept, hupdate, -⟩ := Decomposition.pass_ok h
  refine ⟨not_refusesBinary haccept, ?_⟩
  rintro ⟨x', haccept', hneeds, hfaulty⟩
  obtain rfl := Except.ok.inj (haccept.symm.trans haccept')
  obtain ⟨fault, hfault⟩ := acceptContinuous_error_iff.2 hfaulty
  obtain ⟨hclosed, -⟩ | ⟨-, w, hanswer, hsize, hfin, -⟩ := Decomposition.updateContinuous_ok hupdate
  · exact Bool.false_ne_true (hclosed.symm.trans hneeds)
  · rw [show e.continuousAnswer it st x = .ok w from congrArg Prod.fst hanswer,
      acceptContinuous_of_finite hsize hfin] at hfault
    cases hfault

end Engine

end BinarySplitting
