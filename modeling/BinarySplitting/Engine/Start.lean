import BinarySplitting.Engine.Pass

/-!
# Starting points

A run starts from the standard iterate or from one that the caller supplies. A supplied iterate
must have vectors of the right sizes with finite entries; a single pass needs a positive penalty
besides, a run a binary `x`. A run brings the supplied iterate into form before it starts.
-/

namespace BinarySplitting

inductive IterateField where
  | x
  | z
  | s
  | y
  | u
deriving DecidableEq

def IterateField.name : IterateField → String
  | .x => "x"
  | .z => "z"
  | .s => "s"
  | .y => "y"
  | .u => "u"

/-- Why an iterate is not accepted. -/
inductive StartDefect where
  | size (field : IterateField) (count expected : Nat)
  | notFinite (field : IterateField)
  | rhoNotPositive
  | notBinary
deriving DecidableEq

def StartDefect.message : StartDefect → String
  | .size field count expected =>
    "AdmmEngine: initial " ++ field.name ++ " has size " ++ count.repr ++ ", expected " ++
      expected.repr
  | .notFinite field => "AdmmEngine: initial " ++ field.name ++ " has non-finite entries"
  | .rhoNotPositive => "AdmmEngine::step: rho must be > 0"
  | .notBinary => "AdmmEngine: initial x is not binary"

namespace Decomposition

variable {α : Type} [Scalar α]

/-- A vector has a size and finite entries. -/
def checkVector (field : IterateField) (v : Vec α) (expected : Nat) : Except StartDefect Unit :=
  if v.size ≠ expected then .error (.size field v.size expected)
  else if v.allFinite then .ok ()
  else .error (.notFinite field)

/-- All vectors of an iterate have their sizes and finite entries. -/
def checkVectors (d : Decomposition α) (it : Iterate α) : Except StartDefect Unit := do
  let n := d.problem.numBinary
  checkVector .x it.x n
  checkVector .z it.z n
  checkVector .s it.s n
  checkVector .y it.y n
  checkVector .u it.u d.problem.numContinuous

/-- Accepts an iterate for a single pass. -/
def checkPass (d : Decomposition α) (it : Iterate α) : Except StartDefect Unit := do
  d.checkVectors it
  unless 0.0 < it.rho do throw .rhoNotPositive

/-- The standard start: zero vectors, the continuous one moved between its bounds. -/
def initial (d : Decomposition α) : Iterate α :=
  let zero := Vec.zero d.problem.numBinary
  let u := Vec.zero d.problem.numContinuous
  { (Iterate.blank : Iterate α) with
    x := zero
    z := zero
    s := zero
    y := zero
    u := if d.problem.numContinuous = 0 then u else u.within d.problem.lower d.problem.upper
    rho := d.params.rhoInitial }

/-- A supplied iterate in the form from which a run starts: a binary `x`, no slack where there is
none, a penalty within its limits, and no pass made. -/
def normalize (d : Decomposition α) (it : Iterate α) : Except StartDefect (Iterate α) := do
  d.checkVectors it
  match it.x.snap? with
  | none => throw .notBinary
  | some x =>
    return { it with
      x
      s := if d.params.threeBlock then it.s else Vec.zero it.s.size
      rho := Scalar.clamp it.rho d.params.rhoMin d.params.rhoMax
      iteration := 0
      status := .initialized }

end Decomposition

end BinarySplitting
