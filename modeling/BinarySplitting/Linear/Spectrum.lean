import BinarySplitting.Linear.Kernels

/-!
# Eigenvalues

The eigenvalues of a symmetric matrix by plane rotations: each rotation clears one entry beside the
diagonal, and sweeps over all entries drive what is beside the diagonal to zero. A matrix with large
entries is first divided by a power of two, so that no square overflows; the division and the
multiplication of the eigenvalues by it are exact for machine numbers.
-/

namespace BinarySplitting.Spectrum

variable {α : Type} [Scalar α]

/-! ## Rotations -/

/-- The tangent of the smaller angle whose rotation clears the entry `(p, q)`. -/
def tangent (m : Mat α) (p q : Nat) : α :=
  let half := 0.5 * (m q q - m p p)
  let root := Scalar.sqrt (half * half + m p q * m p q)
  if half < 0.0 then m p q / (half - root) else m p q / (half + root)

/-- Rotates the rows and the columns `p` and `q` by the angle with a given tangent, which clears
their common entry. -/
def turn (m : Mat α) (p q : Nat) (t : α) : Mat α :=
  let c := 1.0 / Scalar.sqrt (t * t + 1.0)
  let s := t * c
  Mat.ofFn m.rows m.cols fun i j =>
    if i = p then
      (if j = p then m p p - t * m p q else if j = q then 0.0 else c * m p j - s * m q j)
    else if i = q then
      (if j = q then m q q + t * m p q else if j = p then 0.0 else s * m p j + c * m q j)
    else if j = p then c * m i p - s * m i q
    else if j = q then s * m i p + c * m i q
    else m i j

/-- Clears the entries `(p, q)` and `(q, p)`. One whose square vanishes is left as it is. -/
def rotate (m : Mat α) (p q : Nat) : Mat α :=
  if Scalar.same (m p q * m p q) 0.0 then m else turn m p q (tangent m p q)

/-! ## Sweeps -/

def pairs (n : Nat) : List (Nat × Nat) :=
  (List.range n).flatMap fun p => ((List.range n).filter (p < ·)).map fun q => (p, q)

/-- One rotation for each position above the diagonal. -/
def sweep (m : Mat α) : Mat α := (pairs m.rows).foldl (fun m (p, q) => rotate m p q) m

/-- The number of sweeps; a handful reaches machine precision. -/
def sweeps : Nat := 24

/-! ## Scaling -/

/-- Doubles a number while it stays within a limit, a number of times at most. -/
def doubleWithin (limit : α) : Nat → α → α
  | 0, a => a
  | n + 1, a => if 2.0 * a ≤ limit then doubleWithin limit n (2.0 * a) else a

/-- The greatest power of two that is not above the greatest absolute value of an entry, at least
one. Finite machine numbers allow no more than 1023 doublings. -/
def scale (m : Mat α) : α := doubleWithin m.maxAbs 1023 1.0

/-- The eigenvalues of the symmetric matrix whose lower triangle is given. -/
def ofMat (m : Mat α) : Vec α :=
  let full := Mat.ofFn m.rows m.rows fun i j => if j ≤ i then m i j else m j i
  let factor := scale full
  let final := Nat.repeat sweep sweeps (full.map (· / factor))
  Vec.ofFn m.rows fun i => factor * final i i

end BinarySplitting.Spectrum
