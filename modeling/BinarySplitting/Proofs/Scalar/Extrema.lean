import BinarySplitting.Proofs.Scalar.Comparison

/-!
# Greatest and least values

A bound of the greatest of finitely many values is a bound of each of them, and conversely. The
greatest value starts with the first one, so an undefined first value makes it undefined; one
further on is passed over. So bounds are asked of the values that are defined, and values that are moved
between two bounds keep those of them that are. The least value is one of the values, too, and below each
of them if all are defined.
-/

namespace BinarySplitting.Scalar

variable {α : Type} [Scalar α]

theorem exists_greatest_eq (n : Nat) (f : Nat → α) : ∃ i ≤ n, greatest n f = f i := by
  induction n with
  | zero => exact ⟨0, Nat.le_refl 0, rfl⟩
  | succ n ih =>
    obtain ⟨i, hi, heq⟩ := ih
    rw [greatest, larger]
    split
    · exact ⟨n + 1, Nat.le_refl _, rfl⟩
    · exact ⟨i, by omega, heq⟩

/-- The greatest value is one of the values, so if it is defined it has a bound of those that are. -/
theorem greatest_le_of_defined {n : Nat} {f : Nat → α} {c : α}
    (h : ∀ i ≤ n, f i ≤ f i → f i ≤ c) (hdefined : greatest n f ≤ greatest n f) : greatest n f ≤ c := by
  obtain ⟨i, hi, heq⟩ := exists_greatest_eq n f
  rw [heq] at hdefined ⊢
  exact h i hi hdefined

theorem greatest_defined {n : Nat} {f : Nat → α} (h : ∀ i ≤ n, f i ≤ f i) : greatest n f ≤ greatest n f := by
  obtain ⟨i, hi, heq⟩ := exists_greatest_eq n f
  rw [heq]
  exact h i hi

theorem exists_least_eq (n : Nat) (f : Nat → α) : ∃ i ≤ n, least n f = f i := by
  induction n with
  | zero => exact ⟨0, Nat.le_refl 0, rfl⟩
  | succ n ih =>
    obtain ⟨i, hi, heq⟩ := ih
    rw [least, smaller]
    split
    · exact ⟨n + 1, Nat.le_refl _, rfl⟩
    · exact ⟨i, by omega, heq⟩

variable [OrderedScalar α] {a b c : α}

theorem larger_le_of_defined (ha : a ≤ c) (hb : b ≤ b → b ≤ c) : larger a b ≤ c := by
  unfold larger
  split
  · next hlt => exact hb (OrderedScalar.refl_of_le _ _ (OrderedScalar.le_of_lt hlt)).2
  · exact ha

/-- A value that was raised to a lower and lowered to an upper bound keeps both, as far as they are
defined and not crossed. -/
theorem smaller_larger_within {v lo hi : α} (hle : ¬ hi < lo)
    (h : smaller (larger v lo) hi ≤ smaller (larger v lo) hi) :
    (lo ≤ lo → lo ≤ smaller (larger v lo) hi) ∧ (hi ≤ hi → smaller (larger v lo) hi ≤ hi) := by
  unfold smaller at h ⊢
  split
  · next hlowered =>
    obtain ⟨hdefined, -⟩ := OrderedScalar.refl_of_le _ _ (OrderedScalar.le_of_lt hlowered)
    exact ⟨fun hlo => (OrderedScalar.lt_or_le hdefined hlo).resolve_left hle, id⟩
  · next hkept =>
    rw [if_neg hkept] at h
    refine ⟨fun hlo => ?_, fun hhi => (OrderedScalar.lt_or_le hhi h).resolve_left hkept⟩
    unfold larger at h ⊢
    split
    · exact hlo
    · next hraised =>
      rw [if_neg hraised] at h
      exact (OrderedScalar.lt_or_le h hlo).resolve_left hraised

theorem left_le_of_larger_le (h : larger a b ≤ c) : a ≤ c := by
  unfold larger at h
  split at h
  · next hlt => exact OrderedScalar.trans _ _ _ (OrderedScalar.le_of_lt hlt) h
  · exact h

theorem right_le_of_larger_le (h : larger a b ≤ c) (hb : b ≤ b) : b ≤ c := by
  unfold larger at h
  split at h
  · exact h
  · next hlt =>
    have ha : a ≤ a := (OrderedScalar.refl_of_le a c h).1
    have hba : b ≤ a := (OrderedScalar.lt_or_le ha hb).resolve_left hlt
    exact OrderedScalar.trans _ _ _ hba h

theorem first_le_of_greatest_le {n : Nat} {f : Nat → α} (h : greatest n f ≤ c) : f 0 ≤ c := by
  induction n with
  | zero => exact h
  | succ n ih => exact ih (left_le_of_larger_le h)

theorem le_of_greatest_le {n i : Nat} {f : Nat → α} (h : greatest n f ≤ c) (hi : i ≤ n)
    (hdefined : f i ≤ f i) : f i ≤ c := by
  induction n with
  | zero => rwa [Nat.le_zero.1 hi] at hdefined ⊢
  | succ n ih =>
    by_cases hlast : i = n + 1
    · subst hlast
      exact right_le_of_larger_le h hdefined
    · exact ih (left_le_of_larger_le h) (by omega)

theorem smaller_le_left (h : smaller a b ≤ smaller a b) : smaller a b ≤ a := by
  unfold smaller at h ⊢
  split
  · next hlt => exact OrderedScalar.le_of_lt hlt
  · next hge =>
    rw [if_neg hge] at h
    exact h

theorem smaller_le_right (h : smaller a b ≤ smaller a b) (hb : b ≤ b) : smaller a b ≤ b := by
  unfold smaller at h ⊢
  split
  · exact hb
  · next hge =>
    rw [if_neg hge] at h
    exact (OrderedScalar.lt_or_le hb h).resolve_left hge

theorem least_le {n i : Nat} {f : Nat → α} (h : ∀ k ≤ n, f k ≤ f k) (hi : i ≤ n) : least n f ≤ f i := by
  induction n with
  | zero =>
    rw [Nat.le_zero.1 hi]
    exact h 0 (Nat.le_refl 0)
  | succ n ih =>
    have hdefined : least (n + 1) f ≤ least (n + 1) f := by
      obtain ⟨k, hk, heq⟩ := exists_least_eq (n + 1) f
      rw [heq]
      exact h k hk
    by_cases hlast : i = n + 1
    · subst hlast
      exact smaller_le_right hdefined (h _ (Nat.le_refl _))
    · exact OrderedScalar.trans _ _ _ (smaller_le_left hdefined)
        (ih (fun k hk => h k (by omega)) (by omega))

end BinarySplitting.Scalar
