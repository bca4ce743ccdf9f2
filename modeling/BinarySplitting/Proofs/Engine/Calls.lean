import BinarySplitting.Proofs.Engine.Start

/-!
# Calls of the oracles

Counting the calls changes nothing else: with counting oracles a pass gives the same outcome and
leaves the same state. A pass asks for one binary vector and, if there is a convex program and the
binary vector was accepted, for one continuous vector; `Engine.Makes.counted` adds this up along a
run.
-/

namespace BinarySplitting

open Oracles

variable {α σ : Type} [Scalar α]

namespace Decomposition

variable {d : Decomposition α} {it next : Iterate α} {st st' : σ} {oracles : Oracles α σ}

/-- The dimensions of the convex programs that the update of the continuous block asks for. -/
def asked (d : Decomposition α) (it : Iterate α) : List ℕ :=
  if d.needsProgram then [(d.program (d.relax it)).dimension] else []

theorem length_asked : (d.asked it).length = if d.needsProgram then 1 else 0 := by
  unfold asked
  split <;> rfl

theorem updateContinuous_counted (calls : Calls) :
    d.updateContinuous oracles.counted.continuous it (st, calls) =
      ((d.updateContinuous oracles.continuous it st).1,
        (d.updateContinuous oracles.continuous it st).2,
        { calls with dimensions := calls.dimensions ++ d.asked it }) := by
  unfold asked
  cases hneeds : d.needsProgram with
  | false =>
    rw [updateContinuous_of_closed _ hneeds, updateContinuous_of_closed _ hneeds]
    simp
  | true =>
    rw [updateContinuous_of_program _ hneeds, updateContinuous_of_program _ hneeds]
    rfl

theorem pass_ok_counted (calls : Calls) (h : d.pass oracles it st = (.ok next, st')) :
    ∃ dimensions, dimensions.length = (if d.needsProgram then 1 else 0) ∧
      d.pass oracles.counted it (st, calls) =
        (.ok next, st', ⟨calls.binary + 1, calls.dimensions ++ dimensions⟩) := by
  obtain ⟨x, updated, haccept, hupdate, rfl⟩ := pass_ok h
  refine ⟨d.asked { it with x }, length_asked, ?_⟩
  refine pass_of_updated haccept ?_
  rw [show (oracles.counted.binary (d.qubo it) (st, calls)).2 =
      ((oracles.binary (d.qubo it) st).2, ⟨calls.binary + 1, calls.dimensions⟩) from rfl,
    updateContinuous_counted, hupdate]

theorem pass_error_counted (calls : Calls) {failure : SubproblemFailure α}
    (h : d.pass oracles it st = (.error failure, st')) :
    ∃ dimensions, dimensions.length = (if failure.block = .continuous then 1 else 0) ∧
      d.pass oracles.counted it (st, calls) =
        (.error failure, st', ⟨calls.binary + 1, calls.dimensions ++ dimensions⟩) := by
  obtain ⟨fault, haccept, rfl, rfl⟩ | ⟨x, fault, haccept, hupdate, rfl⟩ := pass_error h
  · refine ⟨[], rfl, ?_⟩
    rw [List.append_nil]
    exact pass_of_refused haccept
  · refine ⟨d.asked { it with x }, ?_, ?_⟩
    · rw [length_asked, (updateContinuous_error hupdate).1]
      rfl
    · refine pass_of_fault haccept ?_
      rw [show (oracles.counted.binary (d.qubo it) (st, calls)).2 =
          ((oracles.binary (d.qubo it) st).2, ⟨calls.binary + 1, calls.dimensions⟩) from rfl,
        updateContinuous_counted, hupdate]

end Decomposition

/-! ## Runs -/

/-- The calls of the binary oracle in a pass that was not completed. -/
def Ending.binaryCalls : Ending α → ℕ
  | .stopped _ => 0
  | .failed _ => 1

/-- The calls of the continuous oracle in a pass that was not completed. -/
def Ending.continuousCalls : Ending α → ℕ
  | .stopped _ => 0
  | .failed failure => if failure.block = .continuous then 1 else 0

namespace Engine

/-- The engine whose oracles count what they are asked. -/
def counted (e : Engine α σ) : Engine α (σ × Calls) :=
  ⟨e.decomposition, e.oracles.counted, e.clock⟩

variable {e : Engine α σ} {it : Iterate α} {st st' : σ} {passes : List (Pass α)} {ending : Ending α}

/-- The calls along a run, by induction on the derivation. -/
theorem Makes.counted (h : e.Makes it st passes ending st') (calls : Calls) :
    ∃ calls', e.counted.Makes it (st, calls) passes ending (st', calls') ∧
      calls'.binary = calls.binary + passes.length + ending.binaryCalls ∧
      calls'.dimensions.length = calls.dimensions.length +
        (if e.decomposition.needsProgram then passes.length else 0) + ending.continuousCalls := by
  induction h generalizing calls with
  | failed hpass =>
    obtain ⟨dimensions, hlength, hcounted⟩ := Decomposition.pass_error_counted calls hpass
    refine ⟨_, .failed hcounted, rfl, ?_⟩
    rw [List.length_append, hlength]
    simp [Ending.continuousCalls]
  | stopped hpass hstop =>
    obtain ⟨dimensions, hlength, hcounted⟩ := Decomposition.pass_ok_counted calls hpass
    refine ⟨_, .stopped hcounted hstop, rfl, ?_⟩
    rw [List.length_append, hlength]
    rfl
  | next hpass hstop _ ih =>
    obtain ⟨dimensions, hlength, hcounted⟩ := Decomposition.pass_ok_counted calls hpass
    obtain ⟨calls', hrest, hbinary, hcontinuous⟩ := ih ⟨calls.binary + 1, calls.dimensions ++ dimensions⟩
    refine ⟨calls', .next hcounted hstop hrest, ?_, ?_⟩
    · rw [hbinary, List.length_cons]
      show calls.binary + 1 + _ + _ = _
      omega
    · rw [hcontinuous, List.length_append, hlength, List.length_cons]
      split <;> omega

theorem runAt_counted {start? : Option (Iterate α)} {run : Run α}
    (hparams : e.decomposition.params.validate = .ok ())
    (h : e.runAt start? st = (.ok run, st')) :
    ∃ calls, e.counted.runAt start? (st, Calls.none) = (.ok run, st', calls) ∧
      calls.binary = run.passes.length + run.ending.binaryCalls ∧
      calls.dimensions.length =
        (if e.decomposition.needsProgram then run.passes.length else 0) +
          run.ending.continuousCalls := by
  obtain ⟨hstart, hmakes⟩ := runAt_makes hparams h
  obtain ⟨calls, hcounted, hbinary, hcontinuous⟩ := hmakes.counted Calls.none
  refine ⟨calls, runAt_of_makes hparams hstart hcounted, ?_, ?_⟩
  · rw [hbinary]
    exact congrArg (· + _) (Nat.zero_add _)
  · rw [hcontinuous]
    exact congrArg (· + _) (Nat.zero_add _)

end Engine

end BinarySplitting
