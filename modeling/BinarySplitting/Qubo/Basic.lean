import BinarySplitting.Linear.Mat

/-!
# Quadratic binary problems

An unconstrained problem over binary vectors: minimise a quadratic form, a linear form and a
constant. Only the symmetric part of the quadratic form matters.
-/

namespace BinarySplitting

/-- Minimise `x'Qx + l'x + constant` over binary vectors `x`. -/
structure Qubo (α : Type) where
  quadratic : Mat α
  /-- `l`, the linear form; its size is the number of variables. -/
  linear : Vec α
  constant : α

namespace Qubo

variable {α : Type}

def numVariables (q : Qubo α) : Nat := q.linear.size

/-- The quadratic form has a row and a column for each variable. -/
def isSquare (q : Qubo α) : Bool := q.quadratic.hasShape q.numVariables q.numVariables

def value [Scalar α] (q : Qubo α) (x : Vec α) : α :=
  q.quadratic.quadraticForm x + q.linear.dot x + q.constant

end Qubo

end BinarySplitting
