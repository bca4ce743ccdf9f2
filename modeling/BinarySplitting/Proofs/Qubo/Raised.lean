import BinarySplitting.Engine.Oracle
import BinarySplitting.Proofs.Scalar.Exact

/-!
# The constant of a binary problem

A constant raised by a real raises every value by it, and the search compares values only with each
other. So the walk over the raised problem goes through the same vectors, with the values that it carries
along raised (`Walk.flip_raised`, `walk_raised`), and the search finds the same vector
(`Search.run_raised`). An oracle of which the answers do not depend on the constant, such as the search, is
one that `Oracle.IgnoresConstant`.
-/

namespace BinarySplitting

namespace Qubo

section generic

variable {α : Type} [Scalar α]

def raised (q : Qubo α) (k : α) : Qubo α := { q with constant := q.constant + k }

/-- The walk with higher values at the same vectors. -/
def Walk.raised (w : Walk α) (k : α) : Walk α :=
  { w with value := w.value + k, bestValue := w.bestValue + k }

def Solution.raised (s : Solution α) (k : α) : Solution α := { s with objective := s.objective + k }

end generic

variable (k : ℝ)

theorem value_raised (q : Qubo Exact) (x : Vec Exact) : (q.raised k).value x = q.value x + .real k :=
  (Exact.add_assoc _ _ _).symm

theorem Walk.flip_raised (form : Mat Exact) (linear : Vec Exact) (w : Walk Exact) (i : ℕ) :
    (w.raised k).flip form linear i = (w.flip form linear i).raised k := by
  unfold flip raised
  dsimp only
  generalize (if Scalar.same (w.x i) 0.0 = true then (1.0 : Exact) else -1.0) = change
  rw [Exact.add_right_comm]
  generalize w.value + _ = value
  by_cases hlt : value < w.bestValue
  · rw [if_pos ((Exact.add_real_lt_add_real_iff k).2 hlt), if_pos hlt]
  · rw [if_neg (mt (Exact.add_real_lt_add_real_iff k).1 hlt), if_neg hlt]

theorem walk_raised (q : Qubo Exact) (flips : ℕ) : walk (q.raised k) flips = (walk q flips).raised k := by
  induction flips with
  | zero => rfl
  | succ flips ih =>
    unfold walk at ih ⊢
    dsimp only at ih ⊢
    rw [Nat.fold_succ, Nat.fold_succ, ih]
    exact Walk.flip_raised k _ _ _ _

theorem Search.run_raised (s : Search) (q : Qubo Exact) :
    s.run (q.raised k) = (s.run q).map (·.raised k) := by
  have hbest : (walk (q.raised k) ((1 <<< q.numVariables) - 1)).bestX =
      (walk q ((1 <<< q.numVariables) - 1)).bestX := by
    rw [walk_raised]
    rfl
  have hcount : (q.raised k).numVariables = q.numVariables := rfl
  have hsquare : (q.raised k).isSquare = q.isSquare := rfl
  unfold run
  dsimp only
  rw [hcount, hsquare, hbest, value_raised]
  split
  · rfl
  split
  · rfl
  · rfl

end Qubo

/-- The oracle answers alike to problems that differ in nothing but their constant. -/
def Oracle.IgnoresConstant {σ : Type} (oracle : Oracle (Qubo Exact) Exact σ) : Prop :=
  ∀ q (k : ℝ) st, oracle (q.raised k) st = oracle q st

theorem Oracle.ignoresConstant_ofSearch {σ : Type} (s : Qubo.Search) :
    (Oracle.ofSearch s : Oracle (Qubo Exact) Exact σ).IgnoresConstant := by
  intro q k st
  have hanswer : (((s.run (q.raised k)).map (·.x)).mapError .search : Except (SolverFailure Exact) (Vec Exact)) =
      ((s.run q).map (·.x)).mapError .search := by
    rw [Qubo.Search.run_raised]
    cases s.run q <;> rfl
  exact congrArg (fun answer => (answer, st)) hanswer

end BinarySplitting
