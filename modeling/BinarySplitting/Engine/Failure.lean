import BinarySplitting.Engine.Oracle
import BinarySplitting.Message

/-!
# Failures of a run

A pass fails when an oracle fails or when its answer cannot be used. The failure tells the pass and
the block, and keeps the oracle's own kind of failure.
-/

namespace BinarySplitting

/-- The two blocks with subproblems. -/
inductive Block where
  | binary
  | continuous
deriving DecidableEq

namespace Block

def name : Block → String
  | .binary => "binary"
  | .continuous => "continuous"

end Block

/-- What is wrong with an oracle's answer. -/
inductive Fault (α : Type) where
  | solver (failure : SolverFailure α)
  | size (size expected : Nat)
  /-- An entry of the vector is outside the block's domain: it is not binary, or not finite. -/
  | entries

structure SubproblemFailure (α : Type) where
  iteration : Int
  block : Block
  fault : Fault α

/-- The kind of a fault: the oracle's own, else that the solver failed. -/
def Fault.kind {α : Type} : Fault α → FailureKind
  | .solver failure => failure.kind
  | .size _ _ => .failed
  | .entries => .failed

namespace SubproblemFailure

def kind {α : Type} (f : SubproblemFailure α) : FailureKind := f.fault.kind

/-- What happened, without the place. -/
def detail (f : SubproblemFailure Float) : String :=
  match f.fault, f.block with
  | .solver failure, _ => failure.message
  | .size size expected, .binary =>
    "QUBO solution has size " ++ size.repr ++ ", expected " ++ expected.repr
  | .size size expected, .continuous =>
    "convex solution has size " ++ size.repr ++ ", expected " ++ expected.repr
  | .entries, .binary => "QUBO solution is not binary"
  | .entries, .continuous => "convex solution has non-finite entries"

def message (f : SubproblemFailure Float) : String :=
  shown ("SubproblemFailure: " ++ f.block.name ++ " block failed at iteration " ++
    f.iteration.repr ++ " (" ++ f.kind.name ++ "): " ++ f.detail)

end SubproblemFailure

end BinarySplitting
