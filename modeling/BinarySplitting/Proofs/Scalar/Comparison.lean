import BinarySplitting.Scalar

/-!
# Comparisons

What the comparisons of a scalar type have in common: they order the values that are defined
linearly, an undefined value compares to nothing, and no finite value reaches the infinity. Machine
numbers and exact numbers are both of this kind, so a statement about runs that needs no more holds
of both. Everything here follows from the laws of `OrderedScalar`.
-/

namespace BinarySplitting

/-- The comparisons are those of the extended reals with an undefined value. -/
class OrderedScalar (α : Type) [Scalar α] : Prop where
  lt_iff (a b : α) : a < b ↔ a ≤ b ∧ ¬ b ≤ a
  trans (a b c : α) : a ≤ b → b ≤ c → a ≤ c
  total (a b : α) : a ≤ a → b ≤ b → a ≤ b ∨ b ≤ a
  refl_of_le (a b : α) : a ≤ b → a ≤ a ∧ b ≤ b
  le_infinity (a : α) : a ≤ a → a ≤ Scalar.infinity
  not_infinity_le (a : α) : Scalar.isFinite a → ¬ Scalar.infinity ≤ a

namespace OrderedScalar

variable {α : Type} [Scalar α] [OrderedScalar α] {a b c : α}

theorem le_of_lt (h : a < b) : a ≤ b := ((lt_iff a b).1 h).1

theorem not_le_of_lt (h : a < b) : ¬ b ≤ a := ((lt_iff a b).1 h).2

theorem lt_of_lt_of_le (hab : a < b) (hbc : b ≤ c) : a < c := by
  refine (lt_iff a c).2 ⟨trans a b c (le_of_lt hab) hbc, fun hca => ?_⟩
  exact not_le_of_lt hab (trans b c a hbc hca)

theorem lt_of_le_of_lt (hab : a ≤ b) (hbc : b < c) : a < c := by
  refine (lt_iff a c).2 ⟨trans a b c hab (le_of_lt hbc), fun hca => ?_⟩
  exact not_le_of_lt hbc (trans c a b hca hab)

theorem lt_or_le (ha : a ≤ a) (hb : b ≤ b) : a < b ∨ b ≤ a := by
  by_cases hba : b ≤ a
  · exact Or.inr hba
  · exact Or.inl ((lt_iff a b).2 ⟨(total a b ha hb).resolve_right hba, hba⟩)

theorem not_lt_iff_le (ha : a ≤ a) (hb : b ≤ b) : ¬ a < b ↔ b ≤ a :=
  ⟨(lt_or_le ha hb).resolve_left, fun h hlt => not_le_of_lt hlt h⟩

end OrderedScalar

namespace Scalar

variable {α : Type} [Scalar α]

theorem isUndefined_eq_false_iff {a : α} : isUndefined a = false ↔ a ≤ a := by
  simp [isUndefined]

theorem same_iff {a b : α} : same a b = true ↔ a ≤ b ∧ b ≤ a := by
  simp [same]

section clamp

variable [OrderedScalar α] {a lo hi : α}

theorem clamp_within (hle : lo ≤ hi) (h : clamp a lo hi ≤ clamp a lo hi) :
    lo ≤ clamp a lo hi ∧ clamp a lo hi ≤ hi := by
  obtain ⟨hlo, hhi⟩ := OrderedScalar.refl_of_le lo hi hle
  unfold clamp at h ⊢
  split
  · exact ⟨hlo, hle⟩
  · next hlower =>
    rw [if_neg hlower] at h
    split
    · exact ⟨hle, hhi⟩
    · next hupper =>
      rw [if_neg hupper] at h
      exact ⟨(OrderedScalar.lt_or_le h hlo).resolve_left hlower,
        (OrderedScalar.lt_or_le hhi h).resolve_left hupper⟩

theorem lt_clamp {c : α} (hc : c < lo) (hle : lo ≤ hi) (h : clamp a lo hi ≤ clamp a lo hi) :
    c < clamp a lo hi :=
  OrderedScalar.lt_of_lt_of_le hc (clamp_within hle h).1

theorem clamp_defined (hle : lo ≤ hi) (ha : a ≤ a) : clamp a lo hi ≤ clamp a lo hi := by
  obtain ⟨hlo, hhi⟩ := OrderedScalar.refl_of_le lo hi hle
  unfold clamp
  split
  · exact hlo
  · split
    · exact hhi
    · exact ha

theorem clamp_of_mem (hlo : lo ≤ a) (hhi : a ≤ hi) : clamp a lo hi = a := by
  unfold clamp
  rw [if_neg fun h => OrderedScalar.not_le_of_lt h hlo, if_neg fun h => OrderedScalar.not_le_of_lt h hhi]

end clamp

theorem same_trans [OrderedScalar α] {a b c : α} (hab : same a b) (hbc : same b c) : same a c := by
  obtain ⟨h1, h2⟩ := same_iff.1 hab
  obtain ⟨h3, h4⟩ := same_iff.1 hbc
  exact same_iff.2 ⟨OrderedScalar.trans _ _ _ h1 h3, OrderedScalar.trans _ _ _ h4 h2⟩

end Scalar

end BinarySplitting
