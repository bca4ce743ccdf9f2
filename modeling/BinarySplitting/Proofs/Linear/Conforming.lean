import Mathlib.Data.Nat.Notation
import Mathlib.Logic.Basic
import BinarySplitting.Linear.Mat

/-!
# Operations on operands that conform

The operations on vectors and matrices are total: they run to the longer of two lengths and read
`Scalar.outside` past the end of the shorter operand. Here each stands behind the test that its operands
conform, and has no result where they do not. A function that is written with these has a result only if
every operation in it was given operands that conform, and then it is the result of the total operations
(`Vec.add?_of_size`, `Mat.mulVec?_of_size`, …).

A part is put into a vector or a matrix in the same way: it must have the size of its place, and the place
must lie inside. A vector or a matrix that is put together from parts is the one that they make up
(`Vec.assemble?_eq_append`).
-/

namespace BinarySplitting

variable {α : Type} [Scalar α]

/-! ## Vectors -/

namespace Vec

/-- The sum of two vectors of one size. -/
def add? (v w : Vec α) : Option (Vec α) := if v.size = w.size then some (v + w) else none

/-- The difference of two vectors of one size. -/
def sub? (v w : Vec α) : Option (Vec α) := if v.size = w.size then some (v - w) else none

/-- The inner product of two vectors of one size. -/
def dot? (v w : Vec α) : Option α := if v.size = w.size then some (v.dot w) else none

def get? (v : Vec α) (i : ℕ) : Option α := if i < v.size then some (v i) else none

/-- The greatest entry of a vector with entries. -/
def maximum? (v : Vec α) : Option α := if 0 < v.size then some v.maximum else none

/-- The least entry of a vector with entries. -/
def minimum? (v : Vec α) : Option α := if 0 < v.size then some v.minimum else none

/-- The vector with a part in place of its entries from an index on. -/
def put (v : Vec α) (start : ℕ) (part : Vec α) : Vec α :=
  ofFn v.size fun i => if start ≤ i ∧ i < start + part.size then part (i - start) else v i

/-- Puts a part of `n` entries in the place of as many. Only if there are any, the part is computed at all. -/
def put? (v : Vec α) (start n : ℕ) (part? : Option (Vec α)) : Option (Vec α) :=
  if n = 0 then some v
  else do
    let part ← part?
    if part.size = n ∧ start + n ≤ v.size then some (v.put start part) else none

/-- A vector of `n + l` entries from its first `n` and its last `l`, with other entries before. -/
def assemble? (n l : ℕ) (before : Vec α) (head? tail? : Option (Vec α)) : Option (Vec α) := do
  (← before.put? 0 n head?).put? n l tail?

variable {v w : Vec α}

theorem add?_of_size (h : v.size = w.size) : v.add? w = some (v + w) := if_pos h

theorem sub?_of_size (h : v.size = w.size) : v.sub? w = some (v - w) := if_pos h

theorem dot?_of_size (h : v.size = w.size) : v.dot? w = some (v.dot w) := if_pos h

theorem get?_of_lt {i : ℕ} (h : i < v.size) : v.get? i = some (v i) := if_pos h

theorem maximum?_of_size (h : 0 < v.size) : v.maximum? = some v.maximum := if_pos h

theorem minimum?_of_size (h : 0 < v.size) : v.minimum? = some v.minimum := if_pos h

@[simp] theorem size_put (v : Vec α) (start : ℕ) (part : Vec α) : (v.put start part).size = v.size :=
  size_ofFn _ _

theorem get_put {start i : ℕ} {part : Vec α} (hi : i < v.size) :
    v.put start part i = if start ≤ i ∧ i < start + part.size then part (i - start) else v i :=
  get_ofFn _ hi

theorem put?_of_size {start n : ℕ} {part : Vec α} {part? : Option (Vec α)} (hpart : 0 < n → part? = some part)
    (hsize : part.size = n) (hplace : start + n ≤ v.size) : v.put? start n part? = some (v.put start part) := by
  unfold put?
  split
  · next hn =>
    congr 1
    refine ext (size_put _ _ _).symm fun i hi => ?_
    rw [get_put hi, if_neg (by omega)]
  · next hn =>
    rw [hpart (Nat.pos_of_ne_zero hn)]
    exact if_pos ⟨hsize, hplace⟩

theorem put_put_eq_append {n l : ℕ} {before : Vec α} (hbefore : before.size = n + l) (hv : v.size = n)
    (hw : w.size = l) : (before.put 0 v).put n w = v ++ w := by
  refine ext (by simp [hbefore, hv, hw]) fun i hi => ?_
  rw [size_put, size_put] at hi
  rw [get_put (by rwa [size_put]), get_put hi, get_append, hv, hw]
  by_cases hin : i < n
  · rw [if_neg (by omega), if_pos (by omega), if_pos hin, Nat.sub_zero]
  · rw [if_pos (by omega), if_neg hin]

theorem assemble?_eq_append {n l : ℕ} {before : Vec α} {head? tail? : Option (Vec α)}
    (hbefore : before.size = n + l) (hhead : 0 < n → head? = some v) (hv : v.size = n)
    (htail : 0 < l → tail? = some w) (hw : w.size = l) : assemble? n l before head? tail? = some (v ++ w) := by
  unfold assemble?
  rw [put?_of_size hhead hv (by omega)]
  have hplace : n + l ≤ (before.put 0 v).size := by rw [size_put]; omega
  exact (put?_of_size htail hw hplace).trans (congrArg some (put_put_eq_append hbefore hv hw))

theorem assemble?_zero {l : ℕ} {before : Vec α} {head? tail? : Option (Vec α)} (hbefore : before.size = 0 + l)
    (htail : 0 < l → tail? = some w) (hw : w.size = l) : assemble? 0 l before head? tail? = some w := by
  rw [assemble?_eq_append (v := empty) hbefore (fun h => absurd h (Nat.lt_irrefl 0)) rfl htail hw,
    append_of_size_zero_left w rfl]

end Vec

/-! ## Matrices -/

namespace Mat

/-- The sum of two matrices of one shape. -/
def add? (a b : Mat α) : Option (Mat α) := if a.rows = b.rows ∧ a.cols = b.cols then some (a + b) else none

/-- The difference of two matrices of one shape. -/
def sub? (a b : Mat α) : Option (Mat α) := if a.rows = b.rows ∧ a.cols = b.cols then some (a - b) else none

/-- The greatest absolute value of an entry of a matrix with entries. -/
def maxAbs? (m : Mat α) : Option α := if 0 < m.rows ∧ 0 < m.cols then some m.maxAbs else none

/-- The product of two matrices, the second with as many rows as the first has columns. -/
def mul? (a b : Mat α) : Option (Mat α) := if a.cols = b.rows then some (a * b) else none

/-- The product with a vector that has an entry for each column. -/
def mulVec? (m : Mat α) (v : Vec α) : Option (Vec α) := if m.cols = v.size then some (m.mulVec v) else none

def symmetricPart? (m : Mat α) : Option (Mat α) := do return (0.5 : α) • (← m.add? m.transpose)

def quadraticForm? (m : Mat α) (v : Vec α) : Option α := do v.dot? (← m.mulVec? v)

/-- The matrix with a block in place of its entries from a position on. -/
def put (m : Mat α) (top left : ℕ) (block : Mat α) : Mat α :=
  ofFn m.rows m.cols fun i j =>
    if (top ≤ i ∧ i < top + block.rows) ∧ left ≤ j ∧ j < left + block.cols then block (i - top) (j - left)
    else m i j

/-- Puts a block of `rows` by `cols` entries in the place of as many. Only under a condition, the block is
computed at all. -/
def putIf? (m : Mat α) (P : Prop) [Decidable P] (top left rows cols : ℕ) (block? : Option (Mat α)) :
    Option (Mat α) :=
  if P then do
    let block ← block?
    if (block.rows = rows ∧ block.cols = cols) ∧ top + rows ≤ m.rows ∧ left + cols ≤ m.cols then
      some (m.put top left block)
    else none
  else some m

variable {a b m : Mat α} {v : Vec α}

theorem add?_of_shape (hr : a.rows = b.rows) (hc : a.cols = b.cols) : a.add? b = some (a + b) := if_pos ⟨hr, hc⟩

theorem sub?_of_shape (hr : a.rows = b.rows) (hc : a.cols = b.cols) : a.sub? b = some (a - b) := if_pos ⟨hr, hc⟩

theorem maxAbs?_of_shape (hr : 0 < m.rows) (hc : 0 < m.cols) : m.maxAbs? = some m.maxAbs := if_pos ⟨hr, hc⟩

theorem mul?_of_shape (h : a.cols = b.rows) : a.mul? b = some (a * b) := if_pos h

theorem mulVec?_of_size (h : m.cols = v.size) : m.mulVec? v = some (m.mulVec v) := if_pos h

theorem symmetricPart?_of_shape (h : m.rows = m.cols) : m.symmetricPart? = some m.symmetricPart := by
  unfold symmetricPart?
  rw [add?_of_shape (b := m.transpose) h h.symm]
  rfl

theorem quadraticForm?_of_shape (hr : m.rows = v.size) (hc : m.cols = v.size) :
    m.quadraticForm? v = some (m.quadraticForm v) := by
  unfold quadraticForm?
  rw [mulVec?_of_size hc]
  exact Vec.dot?_of_size (by rw [size_mulVec, hr])

@[simp] theorem rows_put (m : Mat α) (top left : ℕ) (block : Mat α) : (m.put top left block).rows = m.rows := rfl

@[simp] theorem cols_put (m : Mat α) (top left : ℕ) (block : Mat α) : (m.put top left block).cols = m.cols := rfl

theorem get_put {top left i j : ℕ} {block : Mat α} (hi : i < m.rows) (hj : j < m.cols) :
    m.put top left block i j =
      if (top ≤ i ∧ i < top + block.rows) ∧ left ≤ j ∧ j < left + block.cols then block (i - top) (j - left)
      else m i j :=
  get_ofFn _ hi hj

theorem putIf?_of_shape {P : Prop} [Decidable P] {top left rows cols : ℕ} {block : Mat α}
    {block? : Option (Mat α)} (hblock : P → block? = some block ∧ block.rows = rows ∧ block.cols = cols)
    (htop : top + rows ≤ m.rows) (hleft : left + cols ≤ m.cols) :
    m.putIf? P top left rows cols block? = some (if P then m.put top left block else m) := by
  unfold putIf?
  split
  · next h =>
    obtain ⟨hsome, hr, hc⟩ := hblock h
    rw [hsome]
    exact if_pos ⟨⟨hr, hc⟩, htop, hleft⟩
  · rfl

theorem get_ite_put {P : Prop} [Decidable P] {top left rows cols i j : ℕ} {block : Mat α}
    (hblock : P → block.rows = rows ∧ block.cols = cols) (hi : i < m.rows) (hj : j < m.cols) :
    (if P then m.put top left block else m) i j =
      if P ∧ (top ≤ i ∧ i < top + rows) ∧ left ≤ j ∧ j < left + cols then block (i - top) (j - left)
      else m i j := by
  split
  · next hP =>
    obtain ⟨rfl, rfl⟩ := hblock hP
    rw [get_put hi hj]
    simp only [hP, true_and]
  · next hP => rw [if_neg fun h => hP h.1]

@[simp] theorem rows_ite_put (P : Prop) [Decidable P] (m : Mat α) (top left : ℕ) (block : Mat α) :
    (if P then m.put top left block else m).rows = m.rows := by
  split <;> rfl

@[simp] theorem cols_ite_put (P : Prop) [Decidable P] (m : Mat α) (top left : ℕ) (block : Mat α) :
    (if P then m.put top left block else m).cols = m.cols := by
  split <;> rfl

end Mat

end BinarySplitting
