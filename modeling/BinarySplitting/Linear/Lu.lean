import BinarySplitting.Linear.Kernels

/-!
# Elimination with row pivoting

A square matrix is written as `L U` up to a change of the order of its rows. Column by column, the
remaining row with the largest absolute entry in the column is brought to the front, and its
multiples are subtracted from the rows below it. A column without a nonzero entry is passed over;
the divisions that follow then give values that are not finite.
-/

namespace BinarySplitting

/-- A factorisation, or one in progress: the order of the rows, the multipliers below the diagonal
and the reduced rows from it on. -/
structure Lu (α : Type) where
  order : List Nat
  entries : Mat α

namespace Lu

variable {α : Type} [Scalar α]

/-- The position of largest absolute value in column `k` among `n` positions from `k` on, the first
of equals. -/
def largestInColumn (m : Mat α) (k : Nat) : Nat → Nat
  | 0 => k
  | n + 1 =>
    let best := largestInColumn m k n
    if Scalar.abs (m best k) < Scalar.abs (m (k + n) k) then k + n else best

def bring (f : Lu α) (k p : Nat) : Lu α :=
  { order := (List.range f.order.length).map fun i => f.order.getD (exchange k p i) 0
    entries := Mat.ofFn f.entries.rows f.entries.cols fun i j => f.entries (exchange k p i) j }

/-- Subtracts the multiples of row `k` that clear the column below it. -/
def eliminate (m : Mat α) (k : Nat) : Mat α :=
  let column := Vec.ofFn m.rows fun i => m i k / m k k
  Mat.ofFn m.rows m.cols fun i j =>
    if k < i then (if j = k then column i else if k < j then m i j - column i * m k j else m i j)
    else m i j

def step (f : Lu α) (k : Nat) : Lu α :=
  let f := f.bring k (largestInColumn f.entries k (f.entries.rows - k))
  if Scalar.same (f.entries k k) 0.0 then f else { f with entries := eliminate f.entries k }

def ofMat (m : Mat α) : Lu α := (List.range m.rows).foldl step ⟨List.range m.rows, m⟩

/-- Subtracts from the entry at position `i` the multiples of the earlier ones. -/
def forward (m : Mat α) (i : Nat) (y : Vec α) : Vec α :=
  y.set i (y i - Scalar.sum i fun k => m i k * y k)

/-- Solves the equation at position `i`, the later unknowns being known. -/
def backward (m : Mat α) (i : Nat) (y : Vec α) : Vec α :=
  let later := Scalar.sum (m.rows - (i + 1)) fun t => m i (i + 1 + t) * y (i + 1 + t)
  y.set i ((y i - later) / m i i)

def solve (f : Lu α) (b : Vec α) : Vec α :=
  let m := f.entries
  let n := m.rows
  let y := Vec.ofFn n fun i => b (f.order.getD i 0)
  let y := Nat.fold n (fun i _ y => forward m i y) y
  Nat.fold n (fun t _ y => backward m (n - 1 - t) y) y

end Lu

end BinarySplitting
