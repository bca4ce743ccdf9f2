import BinarySplitting.Linear.Mat

/-!
# Numerical kernels

What the optimiser asks of numerical linear algebra, as a record: any routines with these types may
be used, and statements about the optimiser can range over all of them.
-/

namespace BinarySplitting

/-- A solver for one fixed system of linear equations: right-hand sides to solutions. -/
structure LinearSolver (α : Type) where
  solve : Vec α → Vec α

/-- The routines that factorise matrices. -/
structure Kernels (α : Type) where
  /-- The eigenvalues of a symmetric matrix, of which the lower triangle is read. -/
  spectrum : Mat α → Vec α
  /-- Solves systems with a symmetric matrix, of which the lower triangle is read, unless its
  factorisation breaks down. -/
  symmetric? : Mat α → Option (LinearSolver α)
  /-- Solves systems with any square matrix; for a singular one the solutions are not finite. -/
  general : Mat α → LinearSolver α

/-- Exchanges two positions in the order of rows or columns. -/
def exchange (k p i : Nat) : Nat := if i = k then p else if i = p then k else i

end BinarySplitting
