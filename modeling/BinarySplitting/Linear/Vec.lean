import BinarySplitting.Scalar

/-!
# Vectors

A vector is a sequence of scalars read by index; an index past the end reads `Scalar.outside`.
Operations on two vectors run to the longer length, so a mismatch of sizes is visible in the
result: it then depends on `Scalar.outside`, and only then.
-/

namespace BinarySplitting

structure Vec (α : Type) where
  entries : Array α

namespace Vec

variable {α : Type}

def size (v : Vec α) : Nat := v.entries.size

def empty : Vec α := ⟨#[]⟩

instance : Inhabited (Vec α) := ⟨empty⟩

/-- The vector of the values of `f` at the indices below `n`. -/
def ofFn (n : Nat) (f : Nat → α) : Vec α := ⟨Array.ofFn fun i : Fin n => f i⟩

def toList (v : Vec α) : List α := v.entries.toList

@[simp] theorem size_ofFn (n : Nat) (f : Nat → α) : (ofFn n f).size = n := by simp [ofFn, size]

def set (v : Vec α) (i : Nat) (a : α) : Vec α := ⟨v.entries.setIfInBounds i a⟩

@[simp] theorem size_set (v : Vec α) (i : Nat) (a : α) : (v.set i a).size = v.size := by
  simp [set, size]

def map (f : α → α) (v : Vec α) : Vec α := ⟨v.entries.map f⟩

@[simp] theorem size_map (f : α → α) (v : Vec α) : (v.map f).size = v.size := by simp [map, size]

def const (n : Nat) (a : α) : Vec α := ofFn n fun _ => a

@[simp] theorem size_const (n : Nat) (a : α) : (const n a).size = n := by simp [const]

/-- The first vector followed by the second. -/
def append (v w : Vec α) : Vec α := ⟨v.entries ++ w.entries⟩

instance : Append (Vec α) := ⟨append⟩

@[simp] theorem size_append (v w : Vec α) : (v ++ w).size = v.size + w.size :=
  Array.size_append

theorem append_of_size_zero_left {v : Vec α} (w : Vec α) (hv : v.size = 0) : v ++ w = w := by
  have hentries : v.entries = #[] := Array.eq_empty_of_size_eq_zero hv
  show Vec.mk (v.entries ++ w.entries) = w
  rw [hentries, Array.empty_append]

theorem append_of_size_zero_right (v : Vec α) {w : Vec α} (hw : w.size = 0) : v ++ w = v := by
  have hentries : w.entries = #[] := Array.eq_empty_of_size_eq_zero hw
  show Vec.mk (v.entries ++ w.entries) = v
  rw [hentries, Array.append_empty]

variable [Scalar α]

def get (v : Vec α) (i : Nat) : α := v.entries.getD i Scalar.outside

instance : CoeFun (Vec α) fun _ => Nat → α := ⟨get⟩

theorem get_ofFn {n i : Nat} (f : Nat → α) (h : i < n) : ofFn n f i = f i := by
  simp [get, ofFn, Array.getD, h]

theorem get_of_size_le {v : Vec α} {i : Nat} (h : v.size ≤ i) : v i = Scalar.outside := by
  simp [get, Array.getD, size] at *
  intro h'
  omega

theorem get_map {v : Vec α} {i : Nat} (f : α → α) (h : i < v.size) : v.map f i = f (v i) := by
  simp_all [get, map, Array.getD, size]

theorem ext {v w : Vec α} (hs : v.size = w.size) (h : ∀ i < v.size, v i = w i) : v = w := by
  cases v with | mk a =>
  cases w with | mk b =>
  congr 1
  apply Array.ext hs
  intro i hi hj
  have := h i hi
  simpa [get, Array.getD, hi, hj] using this

theorem get_const {n i : Nat} (a : α) (h : i < n) : const n a i = a := get_ofFn _ h

theorem get_append (v w : Vec α) (i : Nat) :
    (v ++ w) i = if i < v.size then v i else w (i - v.size) := by
  show (v.entries ++ w.entries).getD i Scalar.outside = _
  simp only [Array.getD_eq_getD_getElem?, Array.getElem?_append, get, size]
  split <;> rfl

theorem get_set {v : Vec α} {i j : Nat} (a : α) (h : j < v.size) :
    v.set i a j = if i = j then a else v j := by
  simp_all [get, set, Array.getD, size, Array.getElem_setIfInBounds]

/-! ## Entrywise operations -/

def zip (f : α → α → α) (v w : Vec α) : Vec α := ofFn (max v.size w.size) fun i => f (v i) (w i)

@[simp] theorem size_zip (f : α → α → α) (v w : Vec α) :
    (zip f v w).size = max v.size w.size := by
  simp [zip]

theorem get_zip {v w : Vec α} {i : Nat} (f : α → α → α) (h : i < max v.size w.size) :
    zip f v w i = f (v i) (w i) :=
  get_ofFn _ h

def zero (n : Nat) : Vec α := const n 0.0

instance : Add (Vec α) := ⟨zip (· + ·)⟩
instance : Sub (Vec α) := ⟨zip (· - ·)⟩
instance : Neg (Vec α) := ⟨map (- ·)⟩
instance : SMul α (Vec α) := ⟨fun a v => v.map (a * ·)⟩

def divBy (v : Vec α) (a : α) : Vec α := v.map (· / a)

/-- Raises every entry to its lower limit, then lowers it to its upper limit. -/
def within (v lo hi : Vec α) : Vec α := zip Scalar.smaller (zip Scalar.larger v lo) hi

theorem get_within {v lo hi : Vec α} {i : Nat} (hlo : i < lo.size) (hhi : i < hi.size) :
    v.within lo hi i = Scalar.smaller (Scalar.larger (v i) (lo i)) (hi i) := by
  unfold within
  rw [get_zip _ (by omega), get_zip _ (by omega)]

/-- Moves every entry into the unit interval. -/
def withinUnit (v : Vec α) : Vec α := v.map fun a => Scalar.smaller (Scalar.larger a 0.0) 1.0

def slice (v : Vec α) (start n : Nat) : Vec α := ofFn n fun i => v (start + i)

@[simp] theorem size_slice (v : Vec α) (start n : Nat) : (v.slice start n).size = n := by
  simp [slice]

theorem get_slice {v : Vec α} {start n i : Nat} (h : i < n) :
    v.slice start n i = v (start + i) :=
  get_ofFn _ h

@[simp] theorem size_zero (n : Nat) : (zero n : Vec α).size = n := size_const n _

@[simp] theorem size_add (v w : Vec α) : (v + w).size = max v.size w.size := size_zip _ v w

@[simp] theorem size_sub (v w : Vec α) : (v - w).size = max v.size w.size := size_zip _ v w

theorem get_sub {v w : Vec α} {i : Nat} (h : i < (v - w).size) : (v - w) i = v i - w i :=
  get_zip _ (size_sub v w ▸ h)

@[simp] theorem size_neg (v : Vec α) : (-v).size = v.size := size_map _ v

@[simp] theorem size_smul (a : α) (v : Vec α) : (a • v).size = v.size := size_map _ v

@[simp] theorem size_divBy (v : Vec α) (a : α) : (v.divBy a).size = v.size := size_map _ v

@[simp] theorem size_withinUnit (v : Vec α) : v.withinUnit.size = v.size := size_map _ v

/-! ## Numbers from vectors -/

def sum (v : Vec α) : α := Scalar.sum v.size v

def dot (v w : Vec α) : α := Scalar.sum (max v.size w.size) fun i => v i * w i

def norm (v : Vec α) : α := Scalar.sqrt (v.dot v)

/-- The greatest entry; a vector without entries has none. -/
def maximum (v : Vec α) : α := Scalar.greatest (v.size - 1) v

/-- The least entry; a vector without entries has none. -/
def minimum (v : Vec α) : α := Scalar.least (v.size - 1) v

/-- The greatest absolute value, zero without entries. -/
def maxNorm (v : Vec α) : α := if v.size = 0 then 0.0 else (v.map Scalar.abs).maximum

def absSum (v : Vec α) : α := (v.map Scalar.abs).sum

/-- The sum of the positive parts. -/
def excess (v : Vec α) : α := (v.map fun a => Scalar.larger a 0.0).sum

def allFinite (v : Vec α) : Bool := v.entries.all Scalar.isFinite

end Vec

end BinarySplitting
