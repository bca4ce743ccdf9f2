import Mathlib.Analysis.SpecialFunctions.Sqrt
import BinarySplitting.Proofs.Scalar.Comparison

/-!
# Exact numbers

`Exact` is the scalar type without rounding: the reals, two infinities, and an undefined value for
`∞ - ∞`, `0 · ∞`, `∞ / ∞`, `0 / 0` and roots of negative numbers. There is one zero, and it divides
as a positive one. Comparisons with the undefined value are false, and an entry that does not exist
is undefined.

On reals the operations are those of `ℝ` (`real_add`, `real_mul`, `real_div`, …), so a computation
on reals is carried to `ℝ` by `simp`.
-/

namespace BinarySplitting

/-- The reals with two infinities and an undefined value. -/
inductive Exact where
  | undefined
  | minusInfinity
  | real (r : ℝ)
  | plusInfinity

namespace Exact

attribute [coe] real

instance : Coe ℝ Exact := ⟨real⟩

/-- The infinity with the sign of a number, undefined for zero. -/
noncomputable def infinityOf (sign : ℝ) : Exact :=
  if 0 < sign then plusInfinity else if sign < 0 then minusInfinity else undefined

protected noncomputable def add : Exact → Exact → Exact
  | undefined, _ => undefined
  | _, undefined => undefined
  | real a, real b => real (a + b)
  | plusInfinity, minusInfinity => undefined
  | minusInfinity, plusInfinity => undefined
  | plusInfinity, _ => plusInfinity
  | _, plusInfinity => plusInfinity
  | minusInfinity, _ => minusInfinity
  | _, minusInfinity => minusInfinity

protected noncomputable def neg : Exact → Exact
  | undefined => undefined
  | minusInfinity => plusInfinity
  | real a => real (-a)
  | plusInfinity => minusInfinity

protected noncomputable def mul : Exact → Exact → Exact
  | undefined, _ => undefined
  | _, undefined => undefined
  | real a, real b => real (a * b)
  | plusInfinity, real b => infinityOf b
  | real a, plusInfinity => infinityOf a
  | minusInfinity, real b => infinityOf (-b)
  | real a, minusInfinity => infinityOf (-a)
  | plusInfinity, plusInfinity => plusInfinity
  | minusInfinity, minusInfinity => plusInfinity
  | plusInfinity, minusInfinity => minusInfinity
  | minusInfinity, plusInfinity => minusInfinity

protected noncomputable def div : Exact → Exact → Exact
  | undefined, _ => undefined
  | _, undefined => undefined
  | real a, real b => if b = 0 then infinityOf a else real (a / b)
  | real _, _ => real 0
  | plusInfinity, real b => if b < 0 then minusInfinity else plusInfinity
  | minusInfinity, real b => if b < 0 then plusInfinity else minusInfinity
  | _, _ => undefined

protected noncomputable def sqrt : Exact → Exact
  | real a => if a < 0 then undefined else real √a
  | plusInfinity => plusInfinity
  | _ => undefined

protected noncomputable def abs : Exact → Exact
  | undefined => undefined
  | real a => real |a|
  | _ => plusInfinity

protected def le : Exact → Exact → Prop
  | undefined, _ => False
  | _, undefined => False
  | minusInfinity, _ => True
  | _, plusInfinity => True
  | real a, real b => a ≤ b
  | _, _ => False

protected def lt (a b : Exact) : Prop := a.le b ∧ ¬ b.le a

/-- Exact numbers; a missing entry is undefined. -/
noncomputable instance instScalar : Scalar Exact where
  add := Exact.add
  sub a b := a.add b.neg
  mul := Exact.mul
  div := Exact.div
  neg := Exact.neg
  lt := Exact.lt
  le := Exact.le
  ofScientific m s e := real (OfScientific.ofScientific m s e)
  sqrt := Exact.sqrt
  abs := Exact.abs
  infinity := plusInfinity
  outside := undefined
  decLt _ _ := Classical.propDecidable _
  decLe _ _ := Classical.propDecidable _

/-! ## Literals -/

theorem literal (m : ℕ) (s : Bool) (e : ℕ) :
    (OfScientific.ofScientific m s e : Exact) = real (OfScientific.ofScientific m s e) := rfl

@[simp] theorem zero_literal : (0.0 : Exact) = real 0 :=
  congrArg real (by norm_num)

@[simp] theorem one_literal : (1.0 : Exact) = real 1 :=
  congrArg real (by norm_num)

@[simp] theorem two_literal : (2.0 : Exact) = real 2 :=
  congrArg real (by norm_num)

@[simp] theorem half_literal : (0.5 : Exact) = real (1 / 2) :=
  congrArg real (by norm_num)

/-! ## Operations on reals -/

variable (a b : ℝ)

@[simp] theorem real_add : real a + real b = real (a + b) := rfl

@[simp] theorem real_sub : real a - real b = real (a - b) :=
  congrArg real (sub_eq_add_neg a b).symm

@[simp] theorem real_mul : real a * real b = real (a * b) := rfl

@[simp] theorem real_neg : -real a = real (-a) := rfl

theorem real_div {b : ℝ} (hb : b ≠ 0) : real a / real b = real (a / b) :=
  if_neg hb

theorem real_sqrt {a : ℝ} (ha : 0 ≤ a) : Scalar.sqrt (real a) = real √a :=
  if_neg (not_lt.mpr ha)

@[simp] theorem real_abs : Scalar.abs (real a) = real |a| := rfl

theorem real_mul_plusInfinity {a : ℝ} (ha : 0 < a) : real a * plusInfinity = plusInfinity :=
  if_pos ha

@[simp] theorem plusInfinity_mul_self : plusInfinity * plusInfinity = plusInfinity := rfl

@[simp] theorem real_div_plusInfinity : real a / plusInfinity = real 0 := rfl

theorem infinityOf_neg {a : ℝ} (ha : 0 < a) : infinityOf (-a) = minusInfinity := by
  unfold infinityOf
  rw [if_neg (by linarith), if_pos (by linarith)]

theorem minusInfinity_mul_real {a : ℝ} (ha : 0 < a) : minusInfinity * real a = minusInfinity :=
  infinityOf_neg ha

theorem neg_real_mul_plusInfinity {a : ℝ} (ha : 0 < a) : -real a * plusInfinity = minusInfinity := by
  have hneg : real (-a) * plusInfinity = infinityOf (-a) := rfl
  rw [real_neg, hneg, infinityOf_neg ha]

/-! ## Comparisons -/

@[simp] theorem real_le_real {a b : ℝ} : real a ≤ real b ↔ a ≤ b := Iff.rfl

@[simp] theorem real_lt_real {a b : ℝ} : real a < real b ↔ a < b :=
  lt_iff_le_not_ge.symm

@[simp] theorem real_inj {a b : ℝ} : real a = real b ↔ a = b :=
  ⟨fun h => Exact.real.inj h, congrArg real⟩

@[simp] theorem not_undefined_le (x : Exact) : ¬ undefined ≤ x := fun h => h

@[simp] theorem not_le_undefined (x : Exact) : ¬ x ≤ undefined := by
  cases x <;> exact fun h => h

@[simp] theorem minusInfinity_le_real : minusInfinity ≤ real a := trivial

@[simp] theorem real_le_plusInfinity : real a ≤ plusInfinity := trivial

@[simp] theorem real_lt_plusInfinity : real a < plusInfinity := ⟨trivial, fun h => h⟩

@[simp] theorem minusInfinity_le_self : minusInfinity ≤ minusInfinity := trivial

@[simp] theorem plusInfinity_le_self : plusInfinity ≤ plusInfinity := trivial

@[simp] theorem minusInfinity_le_plusInfinity : minusInfinity ≤ plusInfinity := trivial

@[simp] theorem not_real_le_minusInfinity : ¬ real a ≤ minusInfinity := fun h => h

@[simp] theorem not_plusInfinity_le_real : ¬ plusInfinity ≤ real a := fun h => h

@[simp] theorem not_plusInfinity_le_minusInfinity : ¬ plusInfinity ≤ minusInfinity := fun h => h

@[simp] theorem not_plusInfinity_lt (x : Exact) : ¬ plusInfinity < x := by
  rintro ⟨hle, hnot⟩
  cases x with
  | plusInfinity => exact hnot trivial
  | undefined => exact hle
  | minusInfinity => exact hle
  | real r => exact hle

@[simp] theorem not_lt_minusInfinity (x : Exact) : ¬ x < minusInfinity := by
  rintro ⟨hle, hnot⟩
  cases x with
  | minusInfinity => exact hnot trivial
  | undefined => exact hle
  | plusInfinity => exact hle
  | real r => exact hle

theorem lt_iff_le_not_le (x y : Exact) : x < y ↔ x ≤ y ∧ ¬ y ≤ x := Iff.rfl

theorem infinity_eq : (Scalar.infinity : Exact) = plusInfinity := rfl

theorem neg_infinity_eq : (-Scalar.infinity : Exact) = minusInfinity := rfl

theorem same_real {a b : ℝ} : Scalar.same (real a) (real b) = true ↔ a = b := by
  rw [Scalar.same_iff, real_le_real, real_le_real, le_antisymm_iff]

theorem isFinite_iff {x : Exact} : Scalar.isFinite x = true ↔ ∃ r : ℝ, x = real r := by
  simp only [Scalar.isFinite, decide_eq_true_eq, infinity_eq, lt_iff_le_not_le]
  constructor
  · rintro ⟨hle, hlt⟩
    cases x with
    | real r => exact ⟨r, rfl⟩
    | undefined => exact hle.elim
    | minusInfinity => exact absurd trivial hlt
    | plusInfinity => exact absurd trivial hlt
  · rintro ⟨r, rfl⟩
    exact real_lt_plusInfinity |r|

theorem exists_real_of_between {x : Exact} {a b : ℝ} (ha : real a ≤ x) (hb : x ≤ real b) :
    ∃ r, x = real r ∧ a ≤ r ∧ r ≤ b := by
  cases x with
  | undefined => exact ha.elim
  | minusInfinity => exact ha.elim
  | plusInfinity => exact hb.elim
  | real r => exact ⟨r, rfl, ha, hb⟩

theorem real_or_infinite_of_lt {x : Exact} {a : ℝ} (h : real a < x) :
    (∃ r, x = real r ∧ a < r) ∨ x = plusInfinity := by
  cases x with
  | undefined => exact h.1.elim
  | minusInfinity => exact h.1.elim
  | plusInfinity => exact Or.inr rfl
  | real r => exact Or.inl ⟨r, rfl, real_lt_real.1 h⟩

instance : OrderedScalar Exact where
  lt_iff := lt_iff_le_not_le
  trans x y z hxy hyz := by
    cases x <;> cases y <;> cases z <;> simp_all
    exact hxy.trans hyz
  total x y hx hy := by
    cases x <;> cases y <;> simp_all
    exact le_total _ _
  refl_of_le x y h := by
    cases x <;> cases y <;> simp_all
  le_infinity x hx := by
    cases x <;> simp_all [infinity_eq]
  not_infinity_le x hx := by
    obtain ⟨r, rfl⟩ := isFinite_iff.1 hx
    exact not_plusInfinity_le_real r

/-! ## Undefined and infinite values -/

section values

variable {x y : Exact}

theorem defined_iff : x ≤ x ↔ x ≠ undefined := by
  cases x <;> simp

theorem defined_of_add (h : x + y ≠ undefined) : x ≠ undefined ∧ y ≠ undefined := by
  constructor
  · rintro rfl
    exact h (by cases y <;> rfl)
  · rintro rfl
    exact h (by cases x <;> rfl)

theorem defined_of_mul (h : x * y ≠ undefined) : x ≠ undefined ∧ y ≠ undefined := by
  constructor
  · rintro rfl
    exact h (by cases y <;> rfl)
  · rintro rfl
    exact h (by cases x <;> rfl)

theorem abs_defined_iff : Scalar.abs x ≠ undefined ↔ x ≠ undefined := by
  cases x <;> simp [Scalar.abs, Exact.abs]

theorem neg_defined_iff : -x ≠ undefined ↔ x ≠ undefined := by
  cases x with
  | undefined => exact Iff.rfl
  | minusInfinity => exact ⟨nofun, nofun⟩
  | real r => exact ⟨nofun, nofun⟩
  | plusInfinity => exact ⟨nofun, nofun⟩

theorem exists_real_of_add {r : ℝ} (h : x + y = real r) : ∃ a b, x = real a ∧ y = real b := by
  cases x with
  | real a =>
    cases y with
    | real b => exact ⟨a, b, rfl, rfl⟩
    | undefined => cases h
    | minusInfinity => cases h
    | plusInfinity => cases h
  | undefined => cases y <;> cases h
  | minusInfinity => cases y <;> cases h
  | plusInfinity => cases y <;> cases h

/-- A real product with a real factor has another real factor: a multiple of an infinity is infinite or
undefined. -/
theorem exists_real_of_real_mul {a r : ℝ} (h : real a * x = real r) : ∃ b, x = real b := by
  have hinfinite : ∀ s : ℝ, infinityOf s ≠ real r := by
    intro s
    unfold infinityOf
    split
    · exact nofun
    · split <;> exact nofun
  cases x with
  | undefined => cases h
  | minusInfinity => exact absurd h (hinfinite (-a))
  | real b => exact ⟨b, rfl⟩
  | plusInfinity => exact absurd h (hinfinite a)

theorem exists_real_of_real_sub {a r : ℝ} (h : real a - x = real r) : ∃ b, x = real b := by
  obtain ⟨-, b, -, hb⟩ := exists_real_of_add h
  cases x with
  | real b => exact ⟨b, rfl⟩
  | undefined => cases hb
  | minusInfinity => cases hb
  | plusInfinity => cases hb

theorem not_abs_le_minusInfinity (x : Exact) : ¬ Scalar.abs x ≤ minusInfinity := by
  cases x <;> exact id

theorem exists_real_of_abs_le {r : ℝ} (h : Scalar.abs x ≤ real r) : ∃ a, x = real a := by
  cases x with
  | real a => exact ⟨a, rfl⟩
  | undefined => exact h.elim
  | minusInfinity => exact h.elim
  | plusInfinity => exact h.elim

theorem real_sub_defined_iff {a : ℝ} : real a - x ≠ undefined ↔ x ≠ undefined := by
  cases x with
  | undefined => exact Iff.rfl
  | minusInfinity => exact ⟨nofun, nofun⟩
  | real r => exact ⟨nofun, nofun⟩
  | plusInfinity => exact ⟨nofun, nofun⟩

theorem sub_real_defined_iff {a : ℝ} : x - real a ≠ undefined ↔ x ≠ undefined := by
  cases x with
  | undefined => exact Iff.rfl
  | minusInfinity => exact ⟨nofun, nofun⟩
  | real r => exact ⟨nofun, nofun⟩
  | plusInfinity => exact ⟨nofun, nofun⟩

theorem defined_of_sub (h : x - y ≤ x - y) : x ≠ undefined ∧ y ≠ undefined := by
  obtain ⟨hx, hy⟩ := defined_of_add (defined_iff.1 h)
  exact ⟨hx, neg_defined_iff.1 hy⟩

theorem le_of_not_lt (hx : x ≠ undefined) (hy : y ≠ undefined) (h : ¬ y < x) : x ≤ y :=
  (OrderedScalar.lt_or_le (defined_iff.2 hy) (defined_iff.2 hx)).resolve_left h

@[simp] theorem isInfinite_plusInfinity : Scalar.isInfinite plusInfinity = true :=
  decide_eq_true plusInfinity_le_self

@[simp] theorem isInfinite_minusInfinity : Scalar.isInfinite minusInfinity = true :=
  decide_eq_true plusInfinity_le_self

@[simp] theorem isInfinite_real (r : ℝ) : Scalar.isInfinite (real r) = false :=
  decide_eq_false (not_plusInfinity_le_real |r|)

theorem isInfinite_eq_false_iff : Scalar.isInfinite x = false ↔ x = undefined ∨ ∃ r, x = real r := by
  cases x with
  | undefined => exact iff_of_true (decide_eq_false (not_le_undefined _)) (Or.inl rfl)
  | minusInfinity => simp
  | real r => simp
  | plusInfinity => simp

theorem isInfinite_add (hx : Scalar.isInfinite x = false) (hy : Scalar.isInfinite y = false) :
    Scalar.isInfinite (x + y) = false := by
  rw [isInfinite_eq_false_iff] at hx hy ⊢
  obtain rfl | ⟨a, rfl⟩ := hx
  · exact Or.inl (by cases y <;> rfl)
  obtain rfl | ⟨b, rfl⟩ := hy
  · exact Or.inl rfl
  · exact Or.inr ⟨a + b, rfl⟩

theorem isInfinite_mul_real (hx : Scalar.isInfinite x = false) (a : ℝ) :
    Scalar.isInfinite (x * real a) = false := by
  rw [isInfinite_eq_false_iff] at hx ⊢
  obtain rfl | ⟨b, rfl⟩ := hx
  · exact Or.inl rfl
  · exact Or.inr ⟨b * a, rfl⟩

theorem exists_real_of_lt (h : x < y) (hfinite : Scalar.isInfinite x = false) : ∃ r, x = real r := by
  rcases isInfinite_eq_false_iff.1 hfinite with rfl | hreal
  · exact absurd (OrderedScalar.le_of_lt h) (not_undefined_le y)
  · exact hreal

theorem exists_real_of_sub_lt {z : ℝ} (h : real z - x < y) (hx : x < plusInfinity) : ∃ r, x = real r := by
  cases x with
  | undefined => exact absurd hx.1 (not_undefined_le _)
  | minusInfinity => exact absurd h (not_plusInfinity_lt y)
  | real r => exact ⟨r, rfl⟩
  | plusInfinity => exact absurd hx (not_plusInfinity_lt _)

theorem exists_real_of_lt_sub {z : ℝ} (h : x - real z < y) (hx : minusInfinity < x) : ∃ r, x = real r := by
  cases x with
  | undefined => exact absurd hx.1 (not_le_undefined _)
  | minusInfinity => exact absurd hx (not_lt_minusInfinity _)
  | real r => exact ⟨r, rfl⟩
  | plusInfinity => exact absurd h (not_plusInfinity_lt y)

theorem sub_real_le {z r e : ℝ} (h : x ≤ real z) (he : z - r ≤ e) : x - real r ≤ real e := by
  cases x with
  | undefined => exact absurd h (not_undefined_le _)
  | plusInfinity => exact absurd h (not_plusInfinity_le_real _)
  | minusInfinity => exact minusInfinity_le_real e
  | real a =>
    rw [real_sub, real_le_real]
    linarith [real_le_real.1 h]

theorem real_sub_le {z r e : ℝ} (h : real z ≤ x) (he : r - z ≤ e) : real r - x ≤ real e := by
  cases x with
  | undefined => exact absurd h (not_le_undefined _)
  | minusInfinity => exact absurd h (not_real_le_minusInfinity _)
  | plusInfinity => exact minusInfinity_le_real e
  | real a =>
    rw [real_sub, real_le_real]
    linarith [real_le_real.1 h]

/-- A number is past no bound that it keeps, and an infinite bound is passed by none. -/
theorem sub_real_nonpos_iff {r : ℝ} : x - real r ≤ real 0 ↔ x ≤ real r := by
  refine ⟨fun h => ?_, fun h => sub_real_le h (sub_self r).le⟩
  cases x with
  | undefined => exact absurd h (not_undefined_le _)
  | plusInfinity => exact absurd h (not_plusInfinity_le_real _)
  | minusInfinity => exact minusInfinity_le_real r
  | real a =>
    rw [real_sub, real_le_real] at h
    rw [real_le_real]
    linarith

theorem real_sub_nonpos_iff {r : ℝ} : real r - x ≤ real 0 ↔ real r ≤ x := by
  refine ⟨fun h => ?_, fun h => real_sub_le h (sub_self r).le⟩
  cases x with
  | undefined => exact absurd h (not_undefined_le _)
  | minusInfinity => exact absurd h (not_plusInfinity_le_real _)
  | plusInfinity => exact real_le_plusInfinity r
  | real a =>
    rw [real_sub, real_le_real] at h
    rw [real_le_real]
    linarith

end values

/-! ## Sums and products

A sum is undefined with an undefined or with two opposite infinite terms, infinite with some other infinite
term and real otherwise, so the order of its terms does not matter. -/

protected theorem add_comm (x y : Exact) : x + y = y + x := by
  cases x <;> cases y <;> first
    | rfl
    | exact congrArg real (add_comm _ _)

protected theorem add_assoc (x y z : Exact) : x + y + z = x + (y + z) := by
  cases x <;> cases y <;> cases z <;> first
    | rfl
    | exact congrArg real (add_assoc _ _ _)

protected theorem add_zero (x : Exact) : x + real 0 = x := by
  cases x <;> first
    | rfl
    | exact congrArg real (add_zero _)

protected theorem add_right_comm (x y z : Exact) : x + y + z = x + z + y := by
  rw [Exact.add_assoc, Exact.add_comm y z, Exact.add_assoc]

protected theorem add_sub_right_comm (x y z : Exact) : x + y - z = x - z + y :=
  Exact.add_right_comm x y (-z)

protected theorem mul_comm (x y : Exact) : x * y = y * x := by
  cases x <;> cases y <;> first
    | rfl
    | exact congrArg real (mul_comm _ _)

theorem add_real_lt_add_real_iff {x y : Exact} (k : ℝ) : x + real k < y + real k ↔ x < y := by
  have hle : ∀ x y : Exact, x + real k ≤ y + real k ↔ x ≤ y := by
    intro x y
    cases x <;> cases y <;> first
      | exact Iff.rfl
      | rw [real_add, real_add, real_le_real, real_le_real, add_le_add_iff_right]
  rw [OrderedScalar.lt_iff, OrderedScalar.lt_iff, hle, hle]

theorem isFinite_add_real {x : Exact} (hx : Scalar.isFinite x = true) (k : ℝ) :
    Scalar.isFinite (x + real k) = true := by
  obtain ⟨a, rfl⟩ := isFinite_iff.1 hx
  exact isFinite_iff.2 ⟨a + k, rfl⟩

/-! ## Bounds -/

theorem larger_real (a b : ℝ) : Scalar.larger (real a) (real b) = real (max a b) := by
  unfold Scalar.larger
  split
  · next h => rw [max_eq_right (real_lt_real.1 h).le]
  · next h => rw [max_eq_left (not_lt.1 fun hlt => h (real_lt_real.2 hlt))]

theorem larger_zero_of_nonpos {x : Exact} (h : x ≤ real 0) : Scalar.larger x (real 0) = real 0 := by
  cases x with
  | undefined => exact absurd h (not_undefined_le _)
  | minusInfinity => exact if_pos ⟨minusInfinity_le_real 0, not_real_le_minusInfinity 0⟩
  | real a => rw [larger_real, max_eq_right (real_le_real.1 h)]
  | plusInfinity => exact absurd h (not_plusInfinity_le_real 0)

theorem smaller_real (a b : ℝ) : Scalar.smaller (real a) (real b) = real (min a b) := by
  unfold Scalar.smaller
  split
  · next h => rw [min_eq_right (real_lt_real.1 h).le]
  · next h => rw [min_eq_left (not_lt.1 fun hlt => h (real_lt_real.2 hlt))]

theorem smaller_plusInfinity (x : Exact) : Scalar.smaller x plusInfinity = x :=
  if_neg (not_plusInfinity_lt x)

theorem clamp_real {lo hi : ℝ} (h : lo ≤ hi) (a : ℝ) :
    Scalar.clamp (real a) (real lo) (real hi) = real (max lo (min a hi)) := by
  unfold Scalar.clamp
  simp only [real_lt_real]
  split
  · next hlt => rw [max_eq_left ((min_le_left a hi).trans hlt.le)]
  · next hlo =>
    split
    · next hlt => rw [min_eq_right hlt.le, max_eq_right h]
    · next hhi => rw [min_eq_left (not_lt.1 hhi), max_eq_right (not_lt.1 hlo)]

theorem clamp_plusInfinity (lo hi : ℝ) :
    Scalar.clamp plusInfinity (real lo) (real hi) = real hi := by
  unfold Scalar.clamp
  rw [if_neg (not_plusInfinity_lt _), if_pos (real_lt_plusInfinity hi)]

end Exact

end BinarySplitting
