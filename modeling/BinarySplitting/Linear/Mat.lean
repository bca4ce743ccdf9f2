import BinarySplitting.Linear.Vec

/-!
# Matrices

A matrix carries its shape and stores one scalar for each position inside it. As with vectors, a
position outside the shape reads `Scalar.outside`, and operations on two matrices cover the larger
shape, so a mismatch shows in the result.
-/

namespace BinarySplitting

structure Mat (α : Type) where
  rows : Nat
  cols : Nat
  entries : Vector (Vector α cols) rows

namespace Mat

variable {α : Type}

/-- The matrix of the values of `f` at the positions inside the shape. -/
def ofFn (rows cols : Nat) (f : Nat → Nat → α) : Mat α :=
  ⟨rows, cols, Vector.ofFn fun i => Vector.ofFn fun j => f i j⟩

@[simp] theorem rows_ofFn (r c : Nat) (f : Nat → Nat → α) : (ofFn r c f).rows = r := rfl

@[simp] theorem cols_ofFn (r c : Nat) (f : Nat → Nat → α) : (ofFn r c f).cols = c := rfl

def empty : Mat α := ⟨0, 0, #v[]⟩

instance : Inhabited (Mat α) := ⟨empty⟩

/-- There is no position inside the shape. -/
def isEmpty (m : Mat α) : Bool := m.rows == 0 || m.cols == 0

def hasShape (m : Mat α) (rows cols : Nat) : Bool := m.rows == rows && m.cols == cols

def any (m : Mat α) (test : α → Bool) : Bool := m.entries.any fun row => row.any test

def all (m : Mat α) (test : α → Bool) : Bool := m.entries.all fun row => row.all test

variable [Scalar α]

def get (m : Mat α) (i j : Nat) : α :=
  if h : i < m.rows ∧ j < m.cols then m.entries[i][j] else Scalar.outside

instance : CoeFun (Mat α) fun _ => Nat → Nat → α := ⟨get⟩

theorem get_ofFn {r c i j : Nat} (f : Nat → Nat → α) (hi : i < r) (hj : j < c) :
    ofFn r c f i j = f i j := by
  simp [get, ofFn, hi, hj]

theorem get_of_not_inside {m : Mat α} {i j : Nat} (h : ¬ (i < m.rows ∧ j < m.cols)) :
    m i j = Scalar.outside := by
  simp only [get, dif_neg h]

theorem ext {a b : Mat α} (hr : a.rows = b.rows) (hc : a.cols = b.cols)
    (h : ∀ i < a.rows, ∀ j < a.cols, a i j = b i j) : a = b := by
  obtain ⟨ra, ca, ea⟩ := a
  obtain ⟨rb, cb, eb⟩ := b
  simp only at hr hc
  subst hr hc
  congr 1
  apply Vector.ext
  intro i hi
  apply Vector.ext
  intro j hj
  have := h i hi j hj
  simpa [get, hi, hj] using this

/-! ## Special matrices -/

def zero (rows cols : Nat) : Mat α := ofFn rows cols fun _ _ => 0.0

@[simp] theorem rows_zero (rows cols : Nat) : (zero rows cols : Mat α).rows = rows := rfl

@[simp] theorem cols_zero (rows cols : Nat) : (zero rows cols : Mat α).cols = cols := rfl

def identity (n : Nat) : Mat α := ofFn n n fun i j => if i = j then 1.0 else 0.0

/-! ## Operations -/

def zip (f : α → α → α) (a b : Mat α) : Mat α :=
  ofFn (max a.rows b.rows) (max a.cols b.cols) fun i j => f (a i j) (b i j)

theorem get_zip {a b : Mat α} {i j : Nat} (f : α → α → α) (hi : i < max a.rows b.rows)
    (hj : j < max a.cols b.cols) : zip f a b i j = f (a i j) (b i j) :=
  get_ofFn _ hi hj

def map (f : α → α) (m : Mat α) : Mat α := ofFn m.rows m.cols fun i j => f (m i j)

theorem get_map {m : Mat α} {i j : Nat} (f : α → α) (hi : i < m.rows) (hj : j < m.cols) :
    map f m i j = f (m i j) :=
  get_ofFn _ hi hj

def transpose (m : Mat α) : Mat α := ofFn m.cols m.rows fun i j => m j i

theorem get_transpose (m : Mat α) (i j : Nat) : m.transpose i j = m j i := by
  by_cases h : i < m.cols ∧ j < m.rows
  · exact get_ofFn _ h.1 h.2
  · rw [get_of_not_inside (m := m.transpose) h, get_of_not_inside fun h' => h h'.symm]

def mul (a b : Mat α) : Mat α :=
  ofFn a.rows b.cols fun i j => Scalar.sum (max a.cols b.rows) fun k => a i k * b k j

def mulVec (m : Mat α) (v : Vec α) : Vec α :=
  Vec.ofFn m.rows fun i => Scalar.sum (max m.cols v.size) fun j => m i j * v j

@[simp] theorem size_mulVec (m : Mat α) (v : Vec α) : (m.mulVec v).size = m.rows := by
  simp [mulVec]

theorem get_mulVec {m : Mat α} {i : Nat} (v : Vec α) (h : i < m.rows) :
    m.mulVec v i = Scalar.sum (max m.cols v.size) fun j => m i j * v j :=
  Vec.get_ofFn _ h

instance : Add (Mat α) := ⟨zip (· + ·)⟩
instance : Sub (Mat α) := ⟨zip (· - ·)⟩
instance : Mul (Mat α) := ⟨mul⟩
instance : SMul α (Mat α) := ⟨fun a m => m.map (a * ·)⟩

@[simp] theorem rows_transpose (m : Mat α) : m.transpose.rows = m.cols := rfl

@[simp] theorem cols_transpose (m : Mat α) : m.transpose.cols = m.rows := rfl

@[simp] theorem rows_add (a b : Mat α) : (a + b).rows = max a.rows b.rows := rfl

@[simp] theorem cols_add (a b : Mat α) : (a + b).cols = max a.cols b.cols := rfl

@[simp] theorem rows_mul (a b : Mat α) : (a * b).rows = a.rows := rfl

@[simp] theorem cols_mul (a b : Mat α) : (a * b).cols = b.cols := rfl

@[simp] theorem rows_smul (a : α) (m : Mat α) : (a • m).rows = m.rows := rfl

@[simp] theorem cols_smul (a : α) (m : Mat α) : (a • m).cols = m.cols := rfl

def addDiagonal (m : Mat α) (a : α) : Mat α :=
  ofFn m.rows m.cols fun i j => if i = j then m i j + a else m i j

/-- Half of the sum with the transpose. -/
def symmetricPart (m : Mat α) : Mat α := (0.5 : α) • (m + m.transpose)

def quadraticForm (m : Mat α) (v : Vec α) : α := v.dot (m.mulVec v)

/-- The greatest absolute value of an entry; a matrix without entries has none. -/
def maxAbs (m : Mat α) : α :=
  Scalar.greatest (m.rows - 1) fun i =>
    Scalar.greatest (m.cols - 1) fun j => Scalar.abs (m i j)

def allFinite (m : Mat α) : Bool := m.all Scalar.isFinite

end Mat

end BinarySplitting
