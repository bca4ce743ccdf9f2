import BinarySplitting.Failure
import BinarySplitting.Qubo.Basic

/-!
# Exhaustive search

All binary vectors are visited in the order of the reflected Gray code, in which neighbours differ
at one index: the vector with number `k + 1` comes from the one with number `k` by a flip at the
lowest set bit of `k + 1`. The product of the quadratic form with the vector is carried along, so a
flip changes the value by a few operations. The first vector of least value is kept.
-/

namespace BinarySplitting.Qubo

/-- A search that accepts a limited number of variables. -/
structure Search where
  limit : Nat
  one_le : 1 ≤ limit
  le_62 : limit ≤ 62

/-- A limit outside the range from 1 to 62. -/
structure Search.LimitError where
  limit : Int
deriving DecidableEq

def Search.LimitError.message (e : LimitError) : String :=
  "ExhaustiveQuboSolver: max_variables must be in [1, 62], got " ++ e.limit.repr

def Search.ofLimit (limit : Int) : Except Search.LimitError Search :=
  if h : 1 ≤ limit ∧ limit ≤ 62 then .ok ⟨limit.toNat, by omega, by omega⟩
  else .error ⟨limit⟩

/-- The limit where nothing else is said. -/
def Search.standardLimit : Int := 24

/-- Why a problem is not searched. -/
inductive Refusal where
  | shape (rows cols count : Nat)
  | tooManyVariables (count limit : Nat)
deriving DecidableEq

def Refusal.message : Refusal → String
  | .shape rows cols count =>
    "ExhaustiveQuboSolver: quadratic term is " ++ rows.repr ++ "x" ++ cols.repr ++
      ", expected " ++ count.repr ++ "x" ++ count.repr
  | .tooManyVariables count limit =>
    "ExhaustiveQuboSolver: " ++ count.repr ++ " variables exceeds the limit of " ++
      limit.repr

/-- A binary vector and its value. -/
structure Solution (α : Type) where
  x : Vec α
  objective : α

variable {α : Type} [Scalar α]

/-! ## The walk -/

/-- Where a walk over the binary vectors stands. -/
structure Walk (α : Type) where
  x : Vec α
  /-- The product of the symmetric quadratic form with it. -/
  product : Vec α
  value : α
  bestX : Vec α
  bestValue : α

/-- The number of zero bits below the lowest set bit, at most `fuel`. -/
def trailingZeros : Nat → Nat → Nat
  | 0, _ => 0
  | fuel + 1, k => if k % 2 = 1 then 0 else trailingZeros fuel (k / 2) + 1

/-- The index of the lowest set bit of a positive number. -/
def lowestSetBit (k : Nat) : Nat := trailingZeros k k

def Walk.start (q : Qubo α) : Walk α :=
  let zero := Vec.zero q.numVariables
  ⟨zero, zero, q.constant, zero, q.constant⟩

/-- Flips one index; `form` is the symmetric quadratic form. -/
def Walk.flip (form : Mat α) (linear : Vec α) (w : Walk α) (i : Nat) : Walk α :=
  let d : α := if Scalar.same (w.x i) 0.0 then 1.0 else -1.0
  let value := w.value + (d * (2.0 * w.product i + linear i) + form i i)
  let product := Vec.ofFn w.product.size fun j => w.product j + d * form j i
  let x := w.x.set i (w.x i + d)
  if value < w.bestValue then ⟨x, product, value, x, value⟩
  else ⟨x, product, value, w.bestX, w.bestValue⟩

/-- The walk after a number of flips. -/
def walk (q : Qubo α) (flips : Nat) : Walk α :=
  let form := q.quadratic.symmetricPart
  Nat.fold flips (fun k _ w => w.flip form q.linear (lowestSetBit (k + 1))) (Walk.start q)

/-! ## The search -/

/-- The first binary vector of least value; its value is computed afresh. -/
def Search.run (s : Search) (q : Qubo α) : Except Refusal (Solution α) :=
  let n := q.numVariables
  if !q.isSquare then .error (.shape q.quadratic.rows q.quadratic.cols n)
  else if s.limit < n then .error (.tooManyVariables n s.limit)
  else
    let x := (walk q ((1 <<< n) - 1)).bestX
    .ok ⟨x, q.value x⟩

end BinarySplitting.Qubo
