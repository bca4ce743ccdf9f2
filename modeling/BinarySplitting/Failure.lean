/-!
# Kinds of failure

How the solver of a subproblem may fail. The kind is what callers act on; the text of a failure is
for people.
-/

namespace BinarySplitting

inductive FailureKind where
  | infeasible
  | failed
  | cancelled
deriving DecidableEq

def FailureKind.name : FailureKind → String
  | .infeasible => "infeasible"
  | .failed => "solver failure"
  | .cancelled => "cancelled"

end BinarySplitting
