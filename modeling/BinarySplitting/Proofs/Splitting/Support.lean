import BinarySplitting.Proofs.Splitting.RealIteration

/-!
# The support of the bounds

A direction in the space of the constraints leans on the upper bounds where it is positive and on the lower ones
where it is negative. Its support is the sum of these bounds, each times its entry. If these bounds are real, no
values between the bounds make more of the direction (`Constraints.Admits.dotProduct_le_support`), and values at
them make just as much (`Constraints.IsNormal.support`).

The sum that certificates use ends early at an infinite bound. So there is one exactly if the direction leans on no
infinite bound, and then it is the support (`Constraints.support?_eq_some_iff`). Without the early end a bound could
make the sum the negative infinity, which is below every real; with it a sum below a real is real, and so are the
bounds (`Constraints.exists_support?_lt_iff`).
-/

namespace BinarySplitting.Splitting.Constraints

open Matrix

section generic

variable {α : Type} [Scalar α]

/-- What an entry of a direction makes of the bound that it leans on. -/
def supportTerm (c : Constraints α) (y : Vec α) (i : ℕ) : α :=
  if 0.0 < y i then c.upper i * y i else if y i < 0.0 then c.lower i * y i else 0.0

/-- The sum of the upper bounds where a direction is positive and the lower bounds where it is negative, each times
the direction's entry. -/
def support (c : Constraints α) (y : Vec α) : α := Scalar.sum y.size (c.supportTerm y)

theorem supportTerm_eq (c : Constraints α) (y : Vec α) (i : ℕ) :
    c.supportTerm y i = ((c.bound? y i).map (· * y i)).getD 0.0 := by
  unfold supportTerm bound?
  by_cases hpos : 0.0 < y i
  · simp only [if_pos hpos, Option.map_some, Option.getD_some]
  · by_cases hneg : y i < 0.0
    · simp only [if_neg hpos, if_pos hneg, Option.map_some, Option.getD_some]
    · simp only [if_neg hpos, if_neg hneg, Option.map_none, Option.getD_none]

end generic

variable {c : Constraints Exact} {k : ℕ} {a b d : Fin k → ℝ}

/-! ## The sum and its early end -/

theorem support?_succ (y : Vec Exact) (j : ℕ) : c.support? y (j + 1) =
    if (c.bound? y j).any Scalar.isInfinite then none
    else (c.support? y j).map (· + c.supportTerm y j) := by
  rw [support?, supportTerm_eq]
  cases c.support? y j with
  | none => simp
  | some total =>
    cases c.bound? y j with
    | none => simp [Exact.add_zero]
    | some b => simp

theorem support?_eq_some_iff {y : Vec Exact} {j : ℕ} {S : Exact} : c.support? y j = some S ↔
    (∀ i < j, (c.bound? y i).any Scalar.isInfinite = false) ∧ Scalar.sum j (c.supportTerm y) = S := by
  induction j generalizing S with
  | zero => simp [support?, Scalar.sum]
  | succ j ih =>
    rw [support?_succ, Nat.forall_lt_succ_right, Scalar.sum]
    cases (c.bound? y j).any Scalar.isInfinite with
    | true => simp
    | false => simp [ih, and_assoc]

/-! ## Directions over the reals -/

/-- The values are the bounds that the direction leans on; where it leans on none they may be any. -/
structure LeansOn (c : Constraints Exact) (d b : Fin k → ℝ) : Prop where
  upper : ∀ i, 0 < d i → c.upper i = .real (b i)
  lower : ∀ i, d i < 0 → c.lower i = .real (b i)

theorem bound?_ofReal (d : Fin k → ℝ) (i : Fin k) : c.bound? (.ofReal d) i =
    if 0 < d i then some (c.upper i) else if d i < 0 then some (c.lower i) else none := by
  simp only [bound?, Vec.get_ofReal_fin, Exact.zero_literal, Exact.real_lt_real]

theorem supportTerm_ofReal (d : Fin k → ℝ) (i : Fin k) : c.supportTerm (.ofReal d) i =
    if 0 < d i then c.upper i * .real (d i) else if d i < 0 then c.lower i * .real (d i) else .real 0 := by
  simp only [supportTerm, Vec.get_ofReal_fin, Exact.zero_literal, Exact.real_lt_real]

theorem isInfinite_supportTerm {i : Fin k} (h : (c.bound? (.ofReal d) i).any Scalar.isInfinite = false) :
    Scalar.isInfinite (c.supportTerm (.ofReal d) i) = false := by
  rw [supportTerm_eq, Vec.get_ofReal_fin]
  cases hbound : c.bound? (.ofReal d) i with
  | none => simp
  | some b =>
    rw [hbound, Option.any_some] at h
    exact Exact.isInfinite_mul_real h (d i)

theorem exists_bound_of_supportTerm {i : Fin k} {r : ℝ} (h : c.supportTerm (.ofReal d) i = .real r) :
    ∃ b, (0 < d i → c.upper i = .real b) ∧ (d i < 0 → c.lower i = .real b) ∧ b * d i = r := by
  rw [supportTerm_ofReal] at h
  rcases lt_trichotomy (d i) 0 with hneg | hzero | hpos
  · rw [if_neg hneg.not_gt, if_pos hneg, Exact.mul_comm] at h
    obtain ⟨b, hb⟩ := Exact.exists_real_of_real_mul h
    rw [hb, Exact.real_mul, Exact.real_inj, mul_comm] at h
    exact ⟨b, fun hpos => absurd hneg hpos.not_gt, fun _ => hb, h⟩
  · rw [hzero, if_neg (lt_irrefl 0), if_neg (lt_irrefl 0), Exact.real_inj] at h
    rw [hzero]
    exact ⟨0, fun hpos => absurd hpos (lt_irrefl 0), fun hneg => absurd hneg (lt_irrefl 0), by rw [zero_mul, h]⟩
  · rw [if_pos hpos, Exact.mul_comm] at h
    obtain ⟨b, hb⟩ := Exact.exists_real_of_real_mul h
    rw [hb, Exact.real_mul, Exact.real_inj, mul_comm] at h
    exact ⟨b, fun _ => hb, fun hneg => absurd hpos hneg.not_gt, h⟩

namespace LeansOn

theorem supportTerm (h : c.LeansOn d b) (i : Fin k) : c.supportTerm (.ofReal d) i = .real (b i * d i) := by
  rw [supportTerm_ofReal]
  rcases lt_trichotomy (d i) 0 with hneg | hzero | hpos
  · rw [if_neg hneg.not_gt, if_pos hneg, h.lower i hneg, Exact.real_mul]
  · rw [hzero, if_neg (lt_irrefl 0), if_neg (lt_irrefl 0), mul_zero]
  · rw [if_pos hpos, h.upper i hpos, Exact.real_mul]

theorem not_infinite (h : c.LeansOn d b) (i : Fin k) :
    (c.bound? (.ofReal d) i).any Scalar.isInfinite = false := by
  rw [bound?_ofReal]
  by_cases hpos : 0 < d i
  · rw [if_pos hpos, h.upper i hpos, Option.any_some, Exact.isInfinite_real]
  · by_cases hneg : d i < 0
    · rw [if_neg hpos, if_pos hneg, h.lower i hneg, Option.any_some, Exact.isInfinite_real]
    · rw [if_neg hpos, if_neg hneg, Option.any_none]

end LeansOn

/-- The support is real exactly if the bounds that the direction leans on are. -/
theorem support_eq_real_iff {s : ℝ} :
    c.support (.ofReal d) = .real s ↔ ∃ b : Fin k → ℝ, c.LeansOn d b ∧ b ⬝ᵥ d = s := by
  unfold support
  rw [Vec.size_ofReal]
  constructor
  · intro h
    have hterms : ∀ i : Fin k, ∃ r, c.supportTerm (.ofReal d) i = .real r := fun i =>
      Scalar.exists_real_of_sum h i i.isLt
    choose r hr using hterms
    choose b hupper hlower hb using fun i => exists_bound_of_supportTerm (hr i)
    rw [Scalar.sum_real hr, Exact.real_inj] at h
    refine ⟨b, ⟨hupper, hlower⟩, ?_⟩
    rw [← h]
    exact Finset.sum_congr rfl fun i _ => hb i
  · rintro ⟨b, hb, rfl⟩
    exact Scalar.sum_real hb.supportTerm

theorem exists_support?_lt_iff {x : ℝ} : (∃ S, c.support? (.ofReal d) k = some S ∧ S < .real x) ↔
    ∃ s, c.support (.ofReal d) = .real s ∧ s < x := by
  have hsupport : Scalar.sum k (c.supportTerm (.ofReal d)) = c.support (.ofReal d) := by
    rw [support, Vec.size_ofReal]
  constructor
  · rintro ⟨S, hS, hlt⟩
    obtain ⟨hfinite, rfl⟩ := support?_eq_some_iff.1 hS
    have hsum := Scalar.isInfinite_sum fun i hi => isInfinite_supportTerm (i := ⟨i, hi⟩) (hfinite i hi)
    obtain ⟨s, hs⟩ := Exact.exists_real_of_lt hlt hsum
    rw [hs, Exact.real_lt_real] at hlt
    exact ⟨s, hsupport.symm.trans hs, hlt⟩
  · rintro ⟨s, hs, hlt⟩
    obtain ⟨b, hb, -⟩ := support_eq_real_iff.1 hs
    refine ⟨.real s, support?_eq_some_iff.2 ⟨fun i hi => hb.not_infinite ⟨i, hi⟩, hsupport.trans hs⟩, ?_⟩
    exact Exact.real_lt_real.2 hlt

/-! ## Values between the bounds -/

theorem LeansOn.mul_le (h : c.LeansOn d b) {i : Fin k} (hlower : c.lower i ≤ .real (a i))
    (hupper : .real (a i) ≤ c.upper i) : d i * a i ≤ d i * b i := by
  rcases lt_trichotomy (d i) 0 with hneg | hzero | hpos
  · rw [h.lower i hneg, Exact.real_le_real] at hlower
    exact mul_le_mul_of_nonpos_left hlower hneg.le
  · rw [hzero, zero_mul, zero_mul]
  · rw [h.upper i hpos, Exact.real_le_real] at hupper
    exact mul_le_mul_of_nonneg_left hupper hpos.le

theorem LeansOn.dotProduct_le (h : c.LeansOn d b) (ha : c.Admits a) : d ⬝ᵥ a ≤ d ⬝ᵥ b :=
  Finset.sum_le_sum fun i _ => h.mul_le (ha i).1 (ha i).2

/-- Where all bounds but one are kept, the value at that one makes the whole difference. -/
theorem LeansOn.dotProduct_le_add (h : c.LeansOn d b) {i : Fin k}
    (ha : ∀ j ≠ i, c.lower j ≤ .real (a j) ∧ .real (a j) ≤ c.upper j) :
    d ⬝ᵥ a ≤ d ⬝ᵥ b + d i * (a i - b i) := by
  have hothers : ∑ j ∈ Finset.univ.erase i, d j * a j ≤ ∑ j ∈ Finset.univ.erase i, d j * b j := by
    refine Finset.sum_le_sum fun j hj => ?_
    obtain ⟨hlower, hupper⟩ := ha j (Finset.ne_of_mem_erase hj)
    exact h.mul_le hlower hupper
  have hsplit (v : Fin k → ℝ) : d i * v i + ∑ j ∈ Finset.univ.erase i, d j * v j = d ⬝ᵥ v :=
    Finset.add_sum_erase _ (fun j => d j * v j) (Finset.mem_univ i)
  calc d ⬝ᵥ a = d i * a i + ∑ j ∈ Finset.univ.erase i, d j * a j := (hsplit a).symm
    _ ≤ d i * a i + ∑ j ∈ Finset.univ.erase i, d j * b j := by gcongr
    _ = d i * b i + ∑ j ∈ Finset.univ.erase i, d j * b j + d i * (a i - b i) := by ring
    _ = d ⬝ᵥ b + d i * (a i - b i) := by rw [hsplit b]

theorem Admits.dotProduct_le_support {s : ℝ} (ha : c.Admits a) (hs : c.support (.ofReal d) = .real s) :
    d ⬝ᵥ a ≤ s := by
  obtain ⟨b, hb, rfl⟩ := support_eq_real_iff.1 hs
  rw [dotProduct_comm b d]
  exact hb.dotProduct_le ha

theorem IsNormal.leansOn {z y : Fin k → ℝ} (h : c.IsNormal z y) : c.LeansOn y z :=
  ⟨h.upper, h.lower⟩

theorem IsNormal.support {z y : Fin k → ℝ} (h : c.IsNormal z y) : c.support (.ofReal y) = .real (z ⬝ᵥ y) :=
  support_eq_real_iff.2 ⟨z, h.leansOn, rfl⟩

end BinarySplitting.Splitting.Constraints
