import BinarySplitting.Linear.Kernels

/-!
# Symmetric factorisation

A symmetric matrix is written as `L D L'` up to a change of order. Position by position, the
remaining diagonal entry of largest absolute value is brought to the front, its column is divided by
it, and the outer product of the column is subtracted from what remains. The factorisation breaks
down when a zero pivot has a nonzero entry below it, or when a nonzero pivot comes after a zero one.
-/

namespace BinarySplitting

/-- A factorisation, or one in progress: the order of the indices and, by positions in it, the
multipliers below the diagonal and the pivots on it. -/
structure Ldlt (α : Type) where
  order : List Nat
  entries : Mat α
  zeroSeen : Bool

namespace Ldlt

variable {α : Type} [Scalar α]

/-- The position of largest absolute diagonal value among `n` positions from `k` on, the first of
equals. -/
def largestDiagonal (m : Mat α) (k : Nat) : Nat → Nat
  | 0 => k
  | n + 1 =>
    let best := largestDiagonal m k n
    if Scalar.abs (m best best) < Scalar.abs (m (k + n) (k + n)) then k + n else best

def bring (f : Ldlt α) (k p : Nat) : Ldlt α :=
  { f with
    order := (List.range f.order.length).map fun i => f.order.getD (exchange k p i) 0
    entries := Mat.ofFn f.entries.rows f.entries.cols fun i j =>
      f.entries (exchange k p i) (exchange k p j) }

/-- Divides the column of position `k` by its pivot and reduces what remains. -/
def eliminate (m : Mat α) (k : Nat) : Mat α :=
  let column := Vec.ofFn m.rows fun i => m i k / m k k
  Mat.ofFn m.rows m.cols fun i j =>
    if k < i ∧ j = k then column i
    else if k < j ∧ j ≤ i then m i j - column i * m j k
    else if k < i ∧ i < j then m j i - column j * m i k
    else m i j

/-- The step at position `k`; none if the factorisation breaks down. -/
def step (f : Ldlt α) (k : Nat) : Option (Ldlt α) :=
  let n := f.entries.rows
  let f := f.bring k (largestDiagonal f.entries k (n - k))
  let m := f.entries
  if (0.0 : α) < Scalar.abs (m k k) then
    if f.zeroSeen then none else some { f with entries := eliminate m k }
  else if (List.range n).all fun i => decide (i ≤ k) || Scalar.same (m i k) 0.0 then
    some { f with zeroSeen := true }
  else none

/-- The factorisation of the symmetric matrix whose lower triangle is given. -/
def ofMat? (m : Mat α) : Option (Ldlt α) :=
  let full := Mat.ofFn m.rows m.rows fun i j => if j ≤ i then m i j else m j i
  (List.range m.rows).foldlM step ⟨List.range m.rows, full, false⟩

/-- The smallest positive normal machine number; a pivot not above it counts as zero. -/
def tiny : α := 2.2250738585072014e-308

/-- Subtracts from the entry at position `i` the multiples of the earlier ones. -/
def forward (m : Mat α) (i : Nat) (y : Vec α) : Vec α :=
  y.set i (y i - Scalar.sum i fun k => m i k * y k)

/-- Subtracts from the entry at position `i` the multiples of the later ones. -/
def backward (m : Mat α) (i : Nat) (y : Vec α) : Vec α :=
  y.set i (y i - Scalar.sum (m.rows - (i + 1)) fun t => m (i + 1 + t) i * y (i + 1 + t))

/-- Divides by the pivots; an entry whose pivot counts as zero is dropped. -/
def scale (m : Mat α) (y : Vec α) : Vec α :=
  Vec.ofFn m.rows fun i => if tiny < Scalar.abs (m i i) then y i / m i i else 0.0

def solve (f : Ldlt α) (b : Vec α) : Vec α :=
  let m := f.entries
  let n := m.rows
  let y := Vec.ofFn n fun i => b (f.order.getD i 0)
  let y := Nat.fold n (fun i _ y => forward m i y) y
  let y := Nat.fold n (fun t _ y => backward m (n - 1 - t) y) (scale m y)
  Nat.fold n (fun i _ x => x.set (f.order.getD i 0) (y i)) (Vec.zero n)

end Ldlt

end BinarySplitting
