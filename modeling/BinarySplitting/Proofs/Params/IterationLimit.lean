import Mathlib.Data.Int.ModEq
import Mathlib.Data.Rat.Floor
import BinarySplitting.Proofs.Params.Document

/-!
# The number of passes in a document

The number of passes is the one field whose value is converted without a test. A whole number that
fits a machine integer is taken as it is; but a whole number that does not is reduced modulo
`2 ^ 32`, a fraction is cut to its whole part, and the truth value `true` counts as one. Whatever of
this is positive is accepted, so the passes of accepted parameters are the number in the document
only where that is a machine integer (`ofJson_maxIterations`).
-/

namespace BinarySplitting

open Decimal

/-! ## Values of numbers -/

/-- The number that a finite machine number stands for. -/
def Decimal.Binary64.value? : Binary64 → Option ℚ
  | .finite negative num den => some (if negative then -(num / den : ℚ) else num / den)
  | _ => none

/-- The number that a document's value stands for. -/
def Json.value? : Json → Option ℚ
  | .integer i => some i
  | .number x => (Binary64.ofFloat x).value?
  | _ => none

/-! ## Reduced and cut numbers -/

theorem machineInteger_eq (i : ℤ) : machineInteger i = Int.bmod i (2 ^ 32) := rfl

theorem machineInteger_modEq (i : ℤ) : i ≡ machineInteger i [ZMOD 2 ^ 32] := by
  rw [machineInteger_eq]
  exact (Int.bmod_emod (x := i) (m := 2 ^ 32)).symm

theorem machineInteger_lt (i : ℤ) : machineInteger i < 2 ^ 31 := by
  have h : Int.bmod i (2 ^ 32) < ((2 ^ 32 : ℕ) + 1) / 2 := Int.bmod_lt (by norm_num)
  rw [machineInteger_eq]
  omega

theorem machineInteger_of_fits {i : ℤ} (hlow : -2 ^ 31 ≤ i) (hhigh : i < 2 ^ 31) :
    machineInteger i = i := by
  rw [machineInteger_eq]
  exact Int.bmod_eq_of_le_mul_two (by norm_num; omega) (by norm_num; omega)

theorem wholePart_cases (x : Float) :
    wholePart x = leastMachineInteger ∨
      ∃ negative num den, Binary64.ofFloat x = .finite negative num den ∧
        wholePart x = (if negative then -(num / den : ℕ) else (num / den : ℕ) : ℤ) ∧
        machineInteger (wholePart x) = wholePart x := by
  unfold wholePart
  split
  · next negative num den hx =>
    generalize hwhole : (if negative then -(num / den : ℕ) else (num / den : ℕ) : ℤ) = i
    by_cases hfits : machineInteger i = i
    · exact .inr ⟨negative, num, den, hx, by rw [if_pos hfits, hwhole], by rw [if_pos hfits, hfits]⟩
    · exact .inl (if_neg hfits)
  · exact .inl rfl

theorem wholePart_lt (x : Float) : wholePart x < 2 ^ 31 := by
  rcases wholePart_cases x with hleast | ⟨_, _, _, _, _, hfits⟩
  · rw [hleast]
    decide
  · rw [← hfits]
    exact machineInteger_lt _

theorem exists_value_of_wholePart_pos {x : Float} (hpos : 0 < wholePart x) :
    ∃ q, (Binary64.ofFloat x).value? = some q ∧ ⌊q⌋ = wholePart x := by
  rcases wholePart_cases x with hleast | ⟨negative, num, den, hx, hwhole, -⟩
  · rw [hleast] at hpos
    exact absurd hpos (by decide)
  · rw [hx, hwhole]
    cases negative with
    | false => exact ⟨num / den, rfl, Rat.floor_natCast_div_natCast num den⟩
    | true =>
      -- a negative number has no positive whole part
      rw [hwhole, if_pos (rfl : true = true), neg_pos] at hpos
      exact absurd hpos (not_lt.2 (Int.natCast_nonneg _))

namespace Params

/-- A number of passes is made from a value: a whole number modulo `2 ^ 32`, the whole part of a
machine number, or one for the truth value. -/
inductive StoredFrom : Json → ℤ → Prop
  | integer {i n : ℤ} (h : i ≡ n [ZMOD 2 ^ 32]) : StoredFrom (.integer i) n
  | number {x : Float} {q : ℚ} (h : (Binary64.ofFloat x).value? = some q) :
      StoredFrom (.number x) ⌊q⌋
  | truth : StoredFrom (.bool true) 1

theorem count_cases {v : Json} {n : ℤ} (h : count? v = some n) :
    (∃ i, v = .integer i ∧ n = machineInteger i) ∨ (∃ x, v = .number x ∧ n = wholePart x) ∨
      ∃ b : Bool, v = .bool b ∧ n = if b then 1 else 0 := by
  cases v with
  | integer i => exact .inl ⟨i, rfl, (Option.some.inj h).symm⟩
  | number x => exact .inr (.inl ⟨x, rfl, (Option.some.inj h).symm⟩)
  | bool b => exact .inr (.inr ⟨b, rfl, (Option.some.inj h).symm⟩)
  | null => cases h
  | string s => cases h
  | array items => cases h
  | object members => cases h

theorem storedFrom_of_count {v : Json} {n : ℤ} (h : count? v = some n) (hpos : 0 < n) :
    StoredFrom v n := by
  rcases count_cases h with ⟨i, rfl, rfl⟩ | ⟨x, rfl, rfl⟩ | ⟨b, rfl, rfl⟩
  · exact .integer (machineInteger_modEq i)
  · obtain ⟨q, hq, hfloor⟩ := exists_value_of_wholePart_pos hpos
    exact hfloor ▸ .number hq
  · cases b with
    | true => exact .truth
    | false => exact absurd hpos (by decide)

theorem lt_of_count {v : Json} {n : ℤ} (h : count? v = some n) : n < 2 ^ 31 := by
  rcases count_cases h with ⟨i, rfl, rfl⟩ | ⟨x, rfl, rfl⟩ | ⟨b, rfl, rfl⟩
  · exact machineInteger_lt i
  · exact wholePart_lt x
  · cases b <;> decide

theorem eq_of_count {v : Json} {n m : ℤ} (h : count? v = some n) (hpos : 0 < n)
    (hv : v.value? = some (m : ℚ)) (hlow : -2 ^ 31 ≤ m) (hhigh : m < 2 ^ 31) : n = m := by
  rcases count_cases h with ⟨i, rfl, rfl⟩ | ⟨x, rfl, rfl⟩ | ⟨b, rfl, rfl⟩
  · have him : i = m := by exact_mod_cast Option.some.inj hv
    rw [him, machineInteger_of_fits hlow hhigh]
  · obtain ⟨q, hq, hfloor⟩ := exists_value_of_wholePart_pos hpos
    have hqm : q = m := Option.some.inj (hq.symm.trans hv)
    rw [← hfloor, hqm, Int.floor_intCast]
  · cases hv

variable {doc : Json} {members : List (String × Json)} {v : Json} {p : Params Float}

/-- The passes of parameters that overlay the standard ones are counted from the value of their
key. -/
theorem Overlays.count (h : Overlays members p) (hv : Json.lookup "maxiter" members = some v) :
    count? v = some p.maxIterations := by
  have hgiven := h ⟨"maxiter", .count, (·.maxIterations), fun n p => { p with maxIterations := n }⟩
    (by simp [fields])
  exact orWrongType_eq_ok_iff.1 (hgiven.convert_eq hv)

/-- A document that gives the number of passes is rejected, with an error of the reader's own, or
its parameters have a positive machine integer made from the value given; and where this value is
a number that fits a machine integer, exactly this number. -/
theorem ofJson_maxIterations (hplace : place doc = .object members)
    (hv : Json.lookup "maxiter" members = some v) :
    (∃ e, ofJson doc = .error e ∧ e.reportedAs = .runtime) ∨
    ∃ p, ofJson doc = .ok p ∧ (0 < p.maxIterations ∧ p.maxIterations < 2 ^ 31) ∧
      StoredFrom v p.maxIterations ∧
      (v.value? = some (p.maxIterations : ℚ) ↔
        ∃ m : ℤ, v.value? = some (m : ℚ) ∧ -2 ^ 31 ≤ m ∧ m < 2 ^ 31) := by
  rcases hread : ofJson doc with e | p
  · exact .inl ⟨e, rfl, e.reportedAs_eq⟩
  · obtain ⟨members', hplace', hoverlays, hadmissible⟩ := ofJson_ok hread
    obtain rfl := Json.object.inj (hplace.symm.trans hplace')
    have hcount := hoverlays.count hv
    have hpos := hadmissible.maxIterations_pos
    have hlt := lt_of_count hcount
    refine .inr ⟨p, rfl, ⟨hpos, hlt⟩, storedFrom_of_count hcount hpos, ?_⟩
    constructor
    · exact fun h => ⟨p.maxIterations, h, by omega, hlt⟩
    · rintro ⟨m, hm, hlow, hhigh⟩
      rw [hm, eq_of_count hcount hpos hm hlow hhigh]

/-- The law at a fraction: the passes are its whole part, and not the number itself. -/
theorem ofJson_maxIterations_fraction :
    ∃ p, ofJson (.object [("maxiter", .number 2.5)]) = .ok p ∧
      StoredFrom (.number 2.5) p.maxIterations ∧
      ((Json.number 2.5).value? = some (p.maxIterations : ℚ) ↔
        ∃ m : ℤ, (Json.number 2.5).value? = some (m : ℚ) ∧ -2 ^ 31 ≤ m ∧ m < 2 ^ 31) := by
  rcases @ofJson_maxIterations (.object [("maxiter", .number 2.5)]) [("maxiter", .number 2.5)]
    (.number 2.5) rfl rfl with ⟨e, he, -⟩ | ⟨p, hp, -, h⟩
  · have hread : ofJson (.object [("maxiter", .number 2.5)]) =
        .ok { standard with maxIterations := 2 } := by rfl
    cases he.symm.trans hread
  · exact ⟨p, hp, h⟩

theorem value_half_five : (Json.number 2.5).value? = some (5 / 2) := by
  have h : Binary64.ofFloat 2.5 = .finite false 5629499534213120 2251799813685248 := by rfl
  simp only [Json.value?, h, Binary64.value?]
  norm_num

/-- A fraction, a truth value and a whole number past the machine integers are accepted and give
other passes than the document. -/
theorem ofJson_accepts_misread :
    (ofJson (.object [("maxiter", .number 2.5)]) = .ok { standard with maxIterations := 2 } ∧
      (Json.number 2.5).value? = some (5 / 2)) ∧
    ofJson (.object [("maxiter", .bool true)]) = .ok { standard with maxIterations := 1 } ∧
    ofJson (.object [("maxiter", .integer 4294967299)]) =
      .ok { standard with maxIterations := 3 } :=
  ⟨⟨by rfl, value_half_five⟩, by rfl, by rfl⟩

end Params

end BinarySplitting
