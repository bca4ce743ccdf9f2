import BinarySplitting.Linear.Ldlt
import BinarySplitting.Linear.Lu
import BinarySplitting.Linear.Spectrum

/-!
# The standard kernels

The kernels of the library: plane rotations for eigenvalues, the symmetric factorisation and
elimination with row pivoting for linear systems.
-/

namespace BinarySplitting

variable {α : Type} [Scalar α]

def LinearSolver.symmetric? (m : Mat α) : Option (LinearSolver α) :=
  (Ldlt.ofMat? m).map fun f => ⟨f.solve⟩

/-- The solver that elimination with row pivoting gives. -/
def LinearSolver.general (m : Mat α) : LinearSolver α :=
  let f := Lu.ofMat m
  ⟨f.solve⟩

def Kernels.standard : Kernels α where
  spectrum := Spectrum.ofMat
  symmetric? := LinearSolver.symmetric?
  general := LinearSolver.general

end BinarySplitting
