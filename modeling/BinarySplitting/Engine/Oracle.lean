import BinarySplitting.Qubo.Exhaustive
import BinarySplitting.Splitting.Solver

/-!
# Oracles

An oracle answers subproblems with vectors or with failures. It may keep a state from one answer to
the next, so that any solver, and any misbehaviour, can stand behind it. A run needs two oracles,
one for binary problems and one for convex programs.
-/

namespace BinarySplitting

/-- Why an oracle gives no vector. -/
inductive SolverFailure (α : Type) where
  | search (refusal : Qubo.Refusal)
  | program (failure : Splitting.Failure α)
  | reported (kind : FailureKind) (text : String)

namespace SolverFailure

def kind {α : Type} : SolverFailure α → FailureKind
  | .search _ => .failed
  | .program failure => failure.kind
  | .reported kind _ => kind

def message : SolverFailure Float → String
  | .search refusal => refusal.message
  | .program failure => failure.message
  | .reported _ text => text

end SolverFailure

/-- A solver of subproblems of type `ι` with a state of type `σ`. -/
abbrev Oracle (ι α σ : Type) := ι → StateM σ (Except (SolverFailure α) (Vec α))

namespace Oracle

variable {ι α σ : Type}

/-- The oracle that answers by a function of the subproblem. -/
def ofFunction (f : ι → Except (SolverFailure α) (Vec α)) : Oracle ι α σ := fun i => pure (f i)

/-- The oracle that gives prepared answers one after another, and at their end a failure. -/
def playback (atEnd : SolverFailure α) : Oracle ι α (List (Except (SolverFailure α) (Vec α))) :=
  fun _ answers =>
    match answers with
    | [] => (.error atEnd, [])
    | a :: rest => (a, rest)

variable [Scalar α]

def ofSearch (s : Qubo.Search) : Oracle (Qubo α) α σ :=
  ofFunction fun q => ((s.run q).map (·.x)).mapError .search

def ofSolver (kernels : Kernels α) (clock : Nat → α) (s : Splitting.Solver α) :
    Oracle (Program α) α σ :=
  ofFunction fun p => ((s.solve kernels clock p).result.map (·.w)).mapError .program

end Oracle

/-- The two oracles of a run, with one state. -/
structure Oracles (α σ : Type) where
  binary : Oracle (Qubo α) α σ
  continuous : Oracle (Program α) α σ

namespace Oracles

variable {α σ τ : Type}

/-- Two oracles with states of their own. -/
def pair (b : Oracle (Qubo α) α σ) (c : Oracle (Program α) α τ) : Oracles α (σ × τ) where
  binary q := fun (s, t) => let (a, s) := b q s; (a, (s, t))
  continuous p := fun (s, t) => let (a, t) := c p t; (a, (s, t))

/-- What the oracles were asked. -/
structure Calls where
  binary : Nat
  dimensions : List Nat
deriving DecidableEq

def Calls.none : Calls := ⟨0, []⟩

/-- Oracles that count what they are asked. -/
def counted (oracles : Oracles α σ) : Oracles α (σ × Calls) where
  binary q := fun (s, calls) =>
    let (a, s) := oracles.binary q s
    (a, (s, { calls with binary := calls.binary + 1 }))
  continuous p := fun (s, calls) =>
    let (a, s) := oracles.continuous p s
    (a, (s, { calls with dimensions := calls.dimensions ++ [p.dimension] }))

end Oracles

end BinarySplitting
