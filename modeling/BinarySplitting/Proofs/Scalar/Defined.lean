import BinarySplitting.Proofs.Scalar.Exact
import BinarySplitting.Proofs.Scalar.Machine

/-!
# Arithmetic that stays defined

A comparison says nothing about an undefined value, so whoever reads a bound off a failed comparison
needs to know that both sides are defined. `DefinedScalar` collects the few laws of that kind which
the checks on a problem rely on: differences of finite values, absolute values, and small multiples of
values from one on are defined, even where they overflow.

Exact numbers keep these laws by case analysis. For machine numbers the argument has two parts. An
operation on unpacked numbers is not-a-number only in the cases that its definition names, since
rounding never makes one (`Machine.roundWithAccuracy_ne`); and packing never makes one either, as an
exponent that is too large for the format becomes an infinity (`Machine.unpack_pack_ne`).
-/

namespace BinarySplitting

/-- An ordered scalar type in which the operations that the checks use on sound data are defined. -/
class DefinedScalar (α : Type) [Scalar α] : Prop extends OrderedScalar α where
  neg_infinity_le (a : α) : a ≤ a → -Scalar.infinity ≤ a
  zero_between : -Scalar.infinity < (0.0 : α) ∧ (0.0 : α) < Scalar.infinity
  one_defined : (1.0 : α) ≤ 1.0
  abs_defined (a : α) : a ≤ a → Scalar.abs a ≤ Scalar.abs a
  sub_defined (a b : α) : Scalar.isFinite a → Scalar.isFinite b → a - b ≤ a - b
  small_mul_defined (a : α) : (1.0 : α) ≤ a → (1e-9 : α) * a ≤ 1e-9 * a ∧ (-1e-9 : α) * a ≤ -1e-9 * a
  /-- Equal values from one on are the same, so their multiples are. -/
  mul_congr (a b c : α) : (1.0 : α) ≤ a → a ≤ b → b ≤ a → c * a = c * b

/-! ## Exact numbers -/

namespace Exact

theorem positive_of_one_le {x : Exact} (h : (1.0 : Exact) ≤ x) : (∃ r : ℝ, 0 < r ∧ x = real r) ∨ x = plusInfinity := by
  rw [one_literal] at h
  cases x with
  | undefined => exact absurd h (not_le_undefined _)
  | minusInfinity => exact absurd h (not_real_le_minusInfinity _)
  | real r => exact Or.inl ⟨r, lt_of_lt_of_le one_pos (real_le_real.1 h), rfl⟩
  | plusInfinity => exact Or.inr rfl

theorem eq_of_le_of_le {x y : Exact} (hxy : x ≤ y) (hyx : y ≤ x) : x = y := by
  cases x <;> cases y <;> simp_all
  exact le_antisymm hxy hyx

instance : DefinedScalar Exact where
  neg_infinity_le x hx := by
    rw [neg_infinity_eq]
    cases x <;> simp_all
  zero_between := by
    rw [neg_infinity_eq, infinity_eq, zero_literal]
    exact ⟨⟨minusInfinity_le_real 0, not_real_le_minusInfinity 0⟩, real_lt_plusInfinity 0⟩
  one_defined := by
    rw [one_literal, real_le_real]
  abs_defined x hx := by
    rw [defined_iff] at hx ⊢
    exact abs_defined_iff.2 hx
  sub_defined x y hx hy := by
    obtain ⟨a, rfl⟩ := isFinite_iff.1 hx
    obtain ⟨b, rfl⟩ := isFinite_iff.1 hy
    rw [real_sub, real_le_real]
  small_mul_defined x hx := by
    have hsmall : (0 : ℝ) < 1e-9 := by norm_num
    rw [literal]
    obtain ⟨r, -, rfl⟩ | rfl := positive_of_one_le hx
    · simp only [real_neg, real_mul, real_le_real, le_refl, and_self]
    · rw [real_mul_plusInfinity hsmall, neg_real_mul_plusInfinity hsmall]
      exact ⟨plusInfinity_le_self, minusInfinity_le_self⟩
  mul_congr x y z _ hxy hyx := by rw [eq_of_le_of_le hxy hyx]

end Exact

/-! ## Machine numbers -/

namespace Machine

open Float.Model

/-! ### Operations on unpacked numbers -/

section unpacked

variable {spec : Format} {u v : UnpackedFloat}

def IsReal : UnpackedFloat → Prop
  | .zero _ => True
  | .finite .. => True
  | _ => False

/-- A finite number or the infinity, of positive sign. -/
def IsPositive : UnpackedFloat → Prop
  | .finite .positive .. => True
  | .infinity .positive => True
  | _ => False

theorem roundWithAccuracy_ne (sign : UnpackedFloat.Sign) (m : ℕ) (e : ℤ) (accuracy : UnpackedFloat.Accuracy) :
    UnpackedFloat.roundWithAccuracy spec sign m e accuracy ≠ .notANumber := by
  fun_cases UnpackedFloat.roundWithAccuracy spec sign m e accuracy with
  | case1 => exact UnpackedFloat.noConfusion
  | case2 => exact UnpackedFloat.noConfusion

theorem normalize_ne (m e : ℤ) (sign : UnpackedFloat.Sign) :
    UnpackedFloat.normalize spec m e sign ≠ .notANumber := by
  unfold UnpackedFloat.normalize
  split
  · exact roundWithAccuracy_ne _ _ _ _
  · exact nofun
  · exact roundWithAccuracy_ne _ _ _ _

theorem sub_ne (hu : IsReal u) (hv : IsReal v) : UnpackedFloat.sub spec u v ≠ .notANumber := by
  cases u with
  | zero s =>
    cases v with
    | zero t =>
      show (if s == -t then UnpackedFloat.zero s else .zero .positive) ≠ .notANumber
      split <;> exact nofun
    | finite => exact nofun
    | infinity => exact hv.elim
    | notANumber => exact hv.elim
  | finite s m e hm =>
    cases v with
    | zero => exact nofun
    | finite => exact normalize_ne _ _ _
    | infinity => exact hv.elim
    | notANumber => exact hv.elim
  | infinity => exact hu.elim
  | notANumber => exact hu.elim

theorem mul_ne {sign : UnpackedFloat.Sign} {m : ℕ} {e : ℤ} {hm : 0 < m} (hv : IsPositive v) :
    UnpackedFloat.mul spec (.finite sign m e hm) v ≠ .notANumber := by
  cases v with
  | finite => exact roundWithAccuracy_ne _ _ _ _
  | infinity => exact nofun
  | zero => exact hv.elim
  | notANumber => exact hv.elim

theorem abs_ne (hu : u ≠ .notANumber) : u.abs ≠ .notANumber := by
  cases u with
  | notANumber => exact absurd rfl hu
  | infinity => exact nofun
  | zero => exact nofun
  | finite => exact nofun

/-! ### Packing -/

theorem unpackMantissa_pack (hu : u ≠ .notANumber)
    (hexponent : UnpackedFloat.unpackExponent (UnpackedFloat.pack spec u) = -1#_) :
    UnpackedFloat.unpackMantissa (UnpackedFloat.pack spec u) = 0#_ := by
  revert hexponent
  fun_cases UnpackedFloat.pack spec u with
  | case1 => exact absurd rfl hu
  | case2 s => simp [UnpackedFloat.packedInfinity]
  | case3 s => simp [UnpackedFloat.packedZero]
  | case4 s m e hm biased h => simp [UnpackedFloat.packedInfinity]
  | case5 s m e hm bits biased hfits hnormal =>
    -- A biased exponent that fits is below the one with all bits set.
    have hne : biased % 2 ^ spec.exponentBits ≠ 2 ^ spec.exponentBits - 1 := by
      rw [Nat.mod_eq_of_lt (by omega)]
      omega
    simp [BitVec.neg_one_eq_allOnes, ← BitVec.toNat_inj, hne]
  | case6 s m e hm bits biased hfits hsubnormal =>
    simp [Nat.pos_iff_ne_zero.1 spec.he]

theorem unpack_pack_ne (hu : u ≠ .notANumber) :
    UnpackedFloat.unpack spec (UnpackedFloat.pack spec u) ≠ .notANumber := by
  delta UnpackedFloat.unpack
  dsimp only
  -- Only the exponent with all bits set is read as not-a-number, and only beside a mantissa.
  by_cases hexponent : UnpackedFloat.unpackExponent (UnpackedFloat.pack spec u) = -1#_
  · rw [if_pos hexponent, if_pos (unpackMantissa_pack hu hexponent)]
    exact UnpackedFloat.noConfusion
  rw [if_neg hexponent]
  by_cases hsubnormal : UnpackedFloat.unpackExponent (UnpackedFloat.pack spec u) = 0#_
  · rw [if_pos hsubnormal]
    by_cases hmantissa : UnpackedFloat.unpackMantissa (UnpackedFloat.pack spec u) = 0#_
    · rw [dif_pos hmantissa]
      exact UnpackedFloat.noConfusion
    · rw [dif_neg hmantissa]
      exact UnpackedFloat.noConfusion
  · rw [if_neg hsubnormal]
    exact UnpackedFloat.noConfusion

/-! ### Keys -/

theorem neg_infinity_key_le (a : UnpackedFloat) : key (.infinity .negative) ≤ key a := by
  rcases a with (_ | _) | _ | (_ | _) | ⟨_ | _, m, e, hm⟩ <;> dsimp only [key] <;>
    simp [Prod.Lex.toLex_le_toLex]

theorem isPositive_of_key_le (hu : IsPositive u) (hle : key u ≤ key v) : IsPositive v := by
  rcases u with (_ | _) | _ | (_ | _) | ⟨_ | _, m, e, hm⟩ <;> first | exact hu.elim | skip
  all_goals
    rcases v with (_ | _) | _ | (_ | _) | ⟨_ | _, k, f, hk⟩ <;> first | exact trivial | skip
    all_goals
      dsimp only [key] at hle
      simp [Prod.Lex.toLex_le_toLex] at hle

theorem eq_of_key_eq (hu : IsPositive u) (hv : IsPositive v) (h : key u = key v) : u = v := by
  rcases u with (_ | _) | _ | (_ | _) | ⟨_ | _, m, e, hm⟩ <;> first | exact hu.elim | skip
  all_goals rcases v with (_ | _) | _ | (_ | _) | ⟨_ | _, k, f, hk⟩ <;> first | exact hv.elim | skip
  all_goals dsimp only [key] at h
  · rfl
  · simp at h
  · simp at h
  · obtain ⟨rfl, rfl⟩ : e = f ∧ m = k := by simpa using h
    rfl

end unpacked

/-! ### Operations on machine numbers -/

section numbers

variable {a b : Float}

theorem le_self_iff : a ≤ a ↔ IsNumber a := by
  rw [le_iff, and_self]
  exact and_iff_left le_rfl

theorem isNumber_of_unpacked {u : UnpackedFloat} (hu : u ≠ .notANumber) : IsNumber (Float.ofModel (pack u)) :=
  unpack_pack_ne hu

theorem isReal_of_isFinite (h : Scalar.isFinite a = true) : IsReal a.toModel.unpack := by
  have hlt : Float.ofModel (pack a.toModel.unpack.abs) < (Scalar.infinity : Float) := of_decide_eq_true h
  cases hu : a.toModel.unpack with
  | zero => trivial
  | finite => trivial
  | infinity s =>
    rw [hu] at hlt
    have hnot : ¬ Float.ofModel (pack (.infinity .positive)) < (Scalar.infinity : Float) := by decide +kernel
    exact absurd hlt hnot
  | notANumber =>
    rw [hu] at hlt
    have hnot : ¬ Float.ofModel (pack .notANumber) < (Scalar.infinity : Float) := by decide +kernel
    exact absurd hlt hnot

theorem isPositive_one : IsPositive (1.0 : Float).toModel.unpack := by
  trivial

theorem isPositive_of_one_le (h : (1.0 : Float) ≤ a) : IsPositive a.toModel.unpack :=
  isPositive_of_key_le isPositive_one (le_iff.1 h).2

theorem exists_unpack_small :
    (∃ sign m e hm, (1e-9 : Float).toModel.unpack = .finite sign m e hm) ∧
      ∃ sign m e hm, (-1e-9 : Float).toModel.unpack = .finite sign m e hm :=
  ⟨⟨.positive, _, _, _, rfl⟩, .negative, _, _, _, rfl⟩

/-- A product is defined whose first factor is finite and not zero, and whose second is positive. -/
theorem mul_defined (ha : ∃ sign m e hm, a.toModel.unpack = .finite sign m e hm)
    (hb : IsPositive b.toModel.unpack) : a * b ≤ a * b := by
  obtain ⟨sign, m, e, hm, hfinite⟩ := ha
  have hne : UnpackedFloat.mul .binary64 a.toModel.unpack b.toModel.unpack ≠ .notANumber := by
    rw [hfinite]
    exact mul_ne hb
  exact le_self_iff.2 (isNumber_of_unpacked hne)

instance : DefinedScalar Float where
  neg_infinity_le a ha := by
    have hnumber : IsNumber (-Scalar.infinity) := le_self_iff.1 (by decide +kernel)
    have hunpack : (-Scalar.infinity : Float).toModel.unpack = .infinity .negative := rfl
    refine le_iff.2 ⟨⟨hnumber, le_self_iff.1 ha⟩, ?_⟩
    rw [place, place, hunpack]
    exact neg_infinity_key_le _
  zero_between := by decide +kernel
  one_defined := by decide +kernel
  abs_defined a ha := le_self_iff.2 (isNumber_of_unpacked (abs_ne (le_self_iff.1 ha)))
  sub_defined a b ha hb :=
    le_self_iff.2 (isNumber_of_unpacked (sub_ne (isReal_of_isFinite ha) (isReal_of_isFinite hb)))
  small_mul_defined a ha :=
    ⟨mul_defined exists_unpack_small.1 (isPositive_of_one_le ha),
      mul_defined exists_unpack_small.2 (isPositive_of_one_le ha)⟩
  mul_congr a b c ha hab hba := by
    have hkey : key a.toModel.unpack = key b.toModel.unpack := le_antisymm (le_iff.1 hab).2 (le_iff.1 hba).2
    have hpositive := isPositive_of_one_le ha
    have hunpack : a.toModel.unpack = b.toModel.unpack :=
      eq_of_key_eq hpositive (isPositive_of_key_le hpositive hkey.le) hkey
    show Float.ofModel (pack (UnpackedFloat.mul .binary64 c.toModel.unpack a.toModel.unpack)) = _
    rw [hunpack]
    rfl

end numbers

end Machine

end BinarySplitting
