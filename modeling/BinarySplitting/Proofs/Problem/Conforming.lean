import BinarySplitting.Proofs.Linear.Conforming
import BinarySplitting.Proofs.Problem.Accepted

/-!
# A point is measured with operands that conform

The objective and the violation of a problem, once more with operations that have no result unless their
operands conform. For an accepted problem and a point of its sizes they all have one, and it is that of the
functions without these tests (`Problem.Accepted.objective?_eq`, `Problem.Accepted.violation?_eq`). Blocks that
were left out are never touched, though nothing is asked of their shape but that they have no entries.

Sizes do not depend on values, so this holds in any arithmetic.
-/

namespace BinarySplitting

variable {α : Type} [Scalar α]

/-! ## With tests -/

namespace Problem

variable (p : Problem α)

def binaryObjective? (x : Vec α) : Option α := do
  return (← p.binaryQuadratic.quadraticForm? x) + (← p.binaryLinear.dot? x)

def continuousObjective? (u : Vec α) : Option α :=
  if p.numContinuous = 0 then some 0.0
  else do return (← p.continuousQuadratic.quadraticForm? u) + (← p.continuousLinear.dot? u)

def objective? (x u : Vec α) : Option α := do
  return (← p.binaryObjective? x) + (← p.continuousObjective? u) + p.constant

def equalityViolation? (x : Vec α) : Option α :=
  if p.numEqualities = 0 then some 0.0
  else do return (← (← p.equalityRows.mulVec? x).sub? p.equalityRhs).absSum

/-- How far the inequalities on the binary variables are missed. -/
def inequalityViolation? (x : Vec α) : Option α :=
  if p.numInequalities = 0 then some 0.0
  else do return (← (← p.inequalityRows.mulVec? x).sub? p.inequalityRhs).excess

/-- The left-hand sides of the coupling rows. -/
def couplingLhs? (x u : Vec α) : Option (Vec α) := do
  let lhs ← p.couplingBinary.mulVec? x
  if p.numContinuous = 0 then some lhs else lhs.add? (← p.couplingContinuous.mulVec? u)

def couplingViolation? (x u : Vec α) : Option α :=
  if p.numCoupling = 0 then some 0.0
  else do return (← (← p.couplingLhs? x u).sub? p.couplingRhs).excess

/-- How far the bounds of the continuous variables are missed. -/
def boundViolation? (u : Vec α) : Option α :=
  if p.numContinuous = 0 then some 0.0
  else do return (← p.lower.sub? u).excess + (← u.sub? p.upper).excess

def violation? (x u : Vec α) : Option α := do
  return (← p.equalityViolation? x) + (← p.inequalityViolation? x) + (← p.couplingViolation? x u) +
    (← p.boundViolation? u)

end Problem

/-! ## Accepted problems -/

/-- What rows miss of their right-hand sides is measured if there are as many rows as these and as many columns
as variables. -/
theorem Mat.residual?_of_shape (measure : Vec α → α) {m : Mat α} {x b : Vec α} (hr : m.rows = b.size)
    (hc : m.cols = x.size) : (do return measure (← (← m.mulVec? x).sub? b)) = some (measure (m.mulVec x - b)) := by
  rw [Mat.mulVec?_of_size hc, Option.bind_eq_bind, Option.bind_some, Vec.sub?_of_size (by rw [Mat.size_mulVec, hr])]
  rfl

namespace Problem.Accepted

variable {p : Problem α} {spectrum : Mat α → Vec α} (hp : p.Accepted spectrum) {x u : Vec α}

include hp

theorem binaryObjective?_eq (hx : x.size = p.numBinary) : p.binaryObjective? x = some (p.binaryObjective x) := by
  obtain ⟨hr, hc⟩ := hp.binaryQuadratic.shape hp.numBinary_pos hp.numBinary_pos
  unfold Problem.binaryObjective?
  rw [Mat.quadraticForm?_of_shape (hr.trans hx.symm) (hc.trans hx.symm), Vec.dot?_of_size hx.symm]
  rfl

theorem continuousObjective?_eq (hu : u.size = p.numContinuous) :
    p.continuousObjective? u = some (p.continuousObjective u) := by
  unfold Problem.continuousObjective? Problem.continuousObjective
  split
  · rfl
  next hl =>
  have hpos := Nat.pos_of_ne_zero hl
  obtain ⟨hr, hc⟩ := hp.continuousQuadratic.shape hpos hpos
  rw [Mat.quadraticForm?_of_shape (hr.trans hu.symm) (hc.trans hu.symm), Vec.dot?_of_size hu.symm]
  rfl

theorem objective?_eq (hx : x.size = p.numBinary) (hu : u.size = p.numContinuous) :
    p.objective? x u = some (p.objective x u) := by
  unfold Problem.objective?
  rw [hp.binaryObjective?_eq hx, hp.continuousObjective?_eq hu]
  rfl

theorem equalityViolation?_eq (hx : x.size = p.numBinary) :
    p.equalityViolation? x = some (p.equalityViolation x) := by
  unfold Problem.equalityViolation? Problem.equalityViolation
  split
  · rfl
  next hm =>
  obtain ⟨hr, hc⟩ := hp.equalityRows.shape (Nat.pos_of_ne_zero hm) hp.numBinary_pos
  exact Mat.residual?_of_shape Vec.absSum hr (hc.trans hx.symm)

theorem inequalityViolation?_eq (hx : x.size = p.numBinary) :
    p.inequalityViolation? x = some (p.inequalityViolation x) := by
  unfold Problem.inequalityViolation? Problem.inequalityViolation
  split
  · rfl
  next hm =>
  obtain ⟨hr, hc⟩ := hp.inequalityRows.shape (Nat.pos_of_ne_zero hm) hp.numBinary_pos
  exact Mat.residual?_of_shape Vec.excess hr (hc.trans hx.symm)

/-- The left-hand sides have a result if there are coupling rows, a left-hand side for each. -/
theorem couplingLhs?_eq (hm : 0 < p.numCoupling) (hx : x.size = p.numBinary) (hu : u.size = p.numContinuous) :
    p.couplingLhs? x u = some (p.couplingLhs x u) ∧ (p.couplingLhs x u).size = p.numCoupling := by
  obtain ⟨hr, hc⟩ := hp.couplingBinary.shape hm hp.numBinary_pos
  unfold Problem.couplingLhs? Problem.couplingLhs
  rw [Mat.mulVec?_of_size (hc.trans hx.symm), Option.bind_eq_bind, Option.bind_some]
  dsimp only
  split
  · exact ⟨rfl, (Mat.size_mulVec _ x).trans hr⟩
  next hl =>
  obtain ⟨hr', hc'⟩ := hp.couplingContinuous.shape hm (Nat.pos_of_ne_zero hl)
  rw [Mat.mulVec?_of_size (hc'.trans hu.symm)]
  refine ⟨Vec.add?_of_size ?_, ?_⟩
  · rw [Mat.size_mulVec, Mat.size_mulVec, hr, hr']
  · rw [Vec.size_add, Mat.size_mulVec, Mat.size_mulVec, hr, hr', Nat.max_self]

theorem couplingViolation?_eq (hx : x.size = p.numBinary) (hu : u.size = p.numContinuous) :
    p.couplingViolation? x u = some (p.couplingViolation x u) := by
  unfold Problem.couplingViolation? Problem.couplingViolation
  split
  · rfl
  next hm =>
  obtain ⟨hlhs, hsize⟩ := hp.couplingLhs?_eq (Nat.pos_of_ne_zero hm) hx hu
  rw [hlhs, Option.bind_eq_bind, Option.bind_some, Vec.sub?_of_size hsize]
  rfl

theorem boundViolation?_eq (hu : u.size = p.numContinuous) :
    p.boundViolation? u = some (p.boundViolation u) := by
  unfold Problem.boundViolation? Problem.boundViolation
  split
  · rfl
  rw [Vec.sub?_of_size (hp.lower_size.trans hu.symm), Vec.sub?_of_size (hu.trans hp.upper_size.symm)]
  rfl

theorem violation?_eq (hx : x.size = p.numBinary) (hu : u.size = p.numContinuous) :
    p.violation? x u = some (p.violation x u) := by
  unfold Problem.violation?
  rw [hp.equalityViolation?_eq hx, hp.inequalityViolation?_eq hx, hp.couplingViolation?_eq hx hu,
    hp.boundViolation?_eq hu]
  rfl

end Problem.Accepted

end BinarySplitting
