import BinarySplitting.Iterate

/-!
# Histories

A history holds one record for each pass, in order. Records are added at the end until the history
is frozen; a frozen history refuses them.
-/

namespace BinarySplitting

/-- What is recorded of a pass: its number, its `Measures` and the penalty. -/
structure Record (α : Type) where
  /-- The first pass has number zero. -/
  iteration : Int
  primal : α
  dual : α
  /-- The penalty during the pass. -/
  rho : α
  objective : α
  violation : α
  merit : α

structure History (α : Type) where
  records : List (Record α)
  frozen : Bool

structure History.Frozen where
  /-- The number of the record's pass. -/
  iteration : Int
deriving DecidableEq

def History.Frozen.message (e : History.Frozen) : String :=
  "ResidualTracker::record: history is frozen (iteration " ++ e.iteration.repr ++ ")"

namespace History

variable {α : Type}

def empty : History α := ⟨[], false⟩

def size (h : History α) : Nat := h.records.length

/-- Adds a record at the end, unless the history is frozen. -/
def record (h : History α) (r : Record α) : Except Frozen (History α) :=
  if h.frozen then .error ⟨r.iteration⟩ else .ok { h with records := h.records ++ [r] }

/-- Adds records at the end, unless the history is frozen. -/
def recordAll (h : History α) (rs : List (Record α)) : Except Frozen (History α) :=
  rs.foldlM record h

def freeze (h : History α) : History α := { h with frozen := true }

def primals (h : History α) : List α := h.records.map (·.primal)

def duals (h : History α) : List α := h.records.map (·.dual)

/-- The least primal residual, infinite without records; undefined ones are passed over. -/
def best [Scalar α] (h : History α) : α := h.primals.foldl Scalar.smaller Scalar.infinity

theorem recordAll_of_not_frozen (rs : List (Record α)) (h : History α) (hf : h.frozen = false) :
    h.recordAll rs = .ok { h with records := h.records ++ rs } := by
  induction rs generalizing h with
  | nil => simp [recordAll, pure, Except.pure]
  | cons r rs ih =>
    have step : h.recordAll (r :: rs) =
        recordAll { h with records := h.records ++ [r] } rs := by
      simp [recordAll, List.foldlM, record, hf, bind, Except.bind]
    rw [step, ih { h with records := h.records ++ [r] } hf]
    simp

end History

end BinarySplitting
