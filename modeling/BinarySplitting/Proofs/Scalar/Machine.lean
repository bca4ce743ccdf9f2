import Mathlib.Data.Prod.Lex
import Mathlib.Order.Compare
import BinarySplitting.Proofs.Scalar.Comparison

/-!
# Machine numbers

The comparisons of machine numbers are those of an ordered scalar type, so what is proved of every
such type holds of the program that runs. A number has a key, its sign class and then its exponent
and mantissa with that sign, and two numbers compare as their keys do in the lexicographic order
(`compare_eq`). Not-a-number compares to nothing.
-/

namespace BinarySplitting

open Float.Model

namespace Machine

/-! ## The key of an unpacked number -/

/-- The place of a number in the order: sign class, exponent, mantissa. -/
def key : UnpackedFloat → ℤ ×ₗ ℤ ×ₗ ℤ
  | .infinity .negative => toLex (-2, toLex (0, 0))
  | .finite .negative m e _ => toLex (-1, toLex (-e, -m))
  | .notANumber => toLex (0, toLex (0, 0))
  | .zero _ => toLex (0, toLex (0, 0))
  | .finite .positive m e _ => toLex (1, toLex (e, m))
  | .infinity .positive => toLex (2, toLex (0, 0))

theorem compare_lex (c c' e e' m m' : ℤ) :
    compare (toLex (c, toLex (e, m))) (toLex (c', toLex (e', m'))) =
      (compare c c').then ((compare e e').then (compare m m')) := by
  simp only [Prod.Lex.compare_def, compareLex, compareOn, ofLex_toLex]

theorem compare_neg_neg (e f : ℤ) : compare (-e) (-f) = (compare e f).swap := by
  rw [compare_iff]
  rcases h : compare e f with _ | _ | _
  · simpa [Ordering.Compares] using compare_lt_iff_lt.1 h
  · simpa [Ordering.Compares] using h
  · simpa [Ordering.Compares] using compare_gt_iff_gt.1 h

theorem compare_natCast (m k : ℕ) : compare (m : ℤ) (k : ℤ) = compare m k := by
  rw [compare_iff]
  rcases h : compare m k with _ | _ | _
  · simpa [Ordering.Compares] using compare_lt_iff_lt.1 h
  · exact congrArg Nat.cast (compare_eq_iff_eq.1 h)
  · simpa [Ordering.Compares] using compare_gt_iff_gt.1 h

/-- Two numbers compare as their keys do. The negative finite ones compare the other way round, which
the key's signs make up for. -/
theorem compare_eq {a b : UnpackedFloat} (ha : a ≠ .notANumber) (hb : b ≠ .notANumber) :
    a.compare b = some (compare (key a) (key b)) := by
  rcases a with (_ | _) | _ | (_ | _) | ⟨_ | _, m, e, hm⟩ <;>
    rcases b with (_ | _) | _ | (_ | _) | ⟨_ | _, k, f, hk⟩ <;>
    first | exact absurd rfl ha | exact absurd rfl hb | skip
  all_goals dsimp only [UnpackedFloat.compare, key]
  all_goals simp only [compare_lex, compare_neg_neg, compare_natCast, ← Ordering.swap_then]
  all_goals rfl

theorem compare_of_notANumber {a b : UnpackedFloat} (h : ¬ (a ≠ .notANumber ∧ b ≠ .notANumber)) :
    a.compare b = none := by
  rcases a with (_ | _) | _ | (_ | _) | ⟨_ | _, m, e, hm⟩ <;>
    rcases b with (_ | _) | _ | (_ | _) | ⟨_ | _, k, f, hk⟩ <;>
    first | rfl | exact absurd ⟨nofun, nofun⟩ h

theorem key_le_infinity (a : UnpackedFloat) : key a ≤ key (.infinity .positive) := by
  rcases a with (_ | _) | _ | (_ | _) | ⟨_ | _, m, e, hm⟩ <;> dsimp only [key] <;>
    simp [Prod.Lex.toLex_le_toLex]

theorem eq_infinity_of_key_le {a : UnpackedFloat} (h : key (.infinity .positive) ≤ key a) :
    a = .infinity .positive := by
  rcases a with (_ | _) | _ | (_ | _) | ⟨_ | _, m, e, hm⟩ <;> dsimp only [key] at h <;>
    first | rfl | simp [Prod.Lex.toLex_le_toLex] at h

/-! ## Comparisons -/

def IsNumber (a : Float) : Prop := a.toModel.unpack ≠ .notANumber

def place (a : Float) : ℤ ×ₗ ℤ ×ₗ ℤ := key a.toModel.unpack

theorem le_iff {a b : Float} : a ≤ b ↔ (IsNumber a ∧ IsNumber b) ∧ place a ≤ place b := by
  show decide (a.toModel.unpack.le b.toModel.unpack = true) = true ↔ _
  rw [decide_eq_true_iff, UnpackedFloat.le]
  by_cases h : IsNumber a ∧ IsNumber b
  · rw [compare_eq h.1 h.2, Option.any_some, ← Ordering.ne_gt_iff_isLE, compare_gt_iff_gt, not_lt]
    exact (and_iff_right h).symm
  · rw [compare_of_notANumber h]
    simp [h]

theorem lt_iff {a b : Float} : a < b ↔ (IsNumber a ∧ IsNumber b) ∧ place a < place b := by
  show decide (a.toModel.unpack.lt b.toModel.unpack = true) = true ↔ _
  rw [decide_eq_true_iff, UnpackedFloat.lt, beq_iff_eq]
  by_cases h : IsNumber a ∧ IsNumber b
  · rw [compare_eq h.1 h.2, Option.some_inj, compare_lt_iff_lt]
    exact (and_iff_right h).symm
  · rw [compare_of_notANumber h]
    simp [h]

theorem unpack_infinity : (Scalar.infinity : Float).toModel.unpack = .infinity .positive := by
  rfl

theorem not_isFinite_of_unpack {a : Float} (h : a.toModel.unpack = .infinity .positive) :
    Scalar.isFinite a = false := by
  have habs : a.abs = Float.ofModel (Float.Model.pack (.infinity .positive)) := by
    show Float.ofModel (Float.Model.pack a.toModel.unpack.abs) = _
    rw [h]
    rfl
  show decide (a.abs < _) = false
  rw [habs]
  decide +kernel

instance : OrderedScalar Float where
  lt_iff a b := by
    rw [lt_iff, le_iff, le_iff]
    constructor
    · exact fun ⟨hnumber, hlt⟩ => ⟨⟨hnumber, hlt.le⟩, fun hle => hle.2.not_gt hlt⟩
    · exact fun ⟨⟨hnumber, _⟩, hle⟩ => ⟨hnumber, not_le.1 fun hba => hle ⟨hnumber.symm, hba⟩⟩
  trans a b c hab hbc := by
    rw [le_iff] at *
    exact ⟨⟨hab.1.1, hbc.1.2⟩, hab.2.trans hbc.2⟩
  total a b ha hb := by
    simp only [le_iff] at *
    rcases le_total (place a) (place b) with h | h
    · exact Or.inl ⟨⟨ha.1.1, hb.1.1⟩, h⟩
    · exact Or.inr ⟨⟨hb.1.1, ha.1.1⟩, h⟩
  refl_of_le a b h := by
    simp only [le_iff] at *
    exact ⟨⟨⟨h.1.1, h.1.1⟩, le_rfl⟩, ⟨h.1.2, h.1.2⟩, le_rfl⟩
  le_infinity a ha := by
    rw [le_iff] at *
    refine ⟨⟨ha.1.1, ?_⟩, ?_⟩
    · rw [IsNumber, unpack_infinity]
      exact nofun
    · rw [place, place, unpack_infinity]
      exact key_le_infinity _
  not_infinity_le a ha h := by
    rw [le_iff, place, place, unpack_infinity] at h
    rw [not_isFinite_of_unpack (eq_infinity_of_key_le h.2)] at ha
    exact Bool.false_ne_true ha

end Machine

end BinarySplitting
