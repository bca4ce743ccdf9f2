import Mathlib.Data.Nat.Bitwise
import Mathlib.Data.Fintype.Card
import Mathlib.Data.Fintype.Fin
import BinarySplitting.Qubo.Exhaustive

/-!
# The reflected Gray code

The code of `k` is `k ^^^ (k >>> 1)`. Two facts make the exhaustive search exhaustive: the code of
`k + 1` differs from that of `k` exactly at the lowest set bit of `k + 1` (`testBit_grayCode_succ`),
and the codes of the numbers below `2 ^ n` are the numbers below `2 ^ n`, each once
(`grayCode_injective`, `exists_grayCode`).
-/

namespace BinarySplitting.Qubo

/-- The number with index `k` in the order of the reflected Gray code. -/
def grayCode (k : ℕ) : ℕ := k ^^^ (k >>> 1)

theorem testBit_grayCode (k i : ℕ) :
    (grayCode k).testBit i = (k.testBit i ^^ k.testBit (i + 1)) := by
  rw [grayCode, Nat.testBit_xor, Nat.testBit_shiftRight, Nat.add_comm 1 i]

theorem testBit_grayCode_div_two (k i : ℕ) :
    (grayCode k).testBit (i + 1) = (grayCode (k / 2)).testBit i := by
  rw [testBit_grayCode, testBit_grayCode, Nat.testBit_succ, Nat.testBit_succ k (i + 1)]

theorem testBit_grayCode_zero (k : ℕ) :
    (grayCode k).testBit 0 = (decide (k % 2 = 1) ^^ decide (k / 2 % 2 = 1)) := by
  rw [testBit_grayCode, Nat.testBit_succ, Nat.testBit_zero, Nat.testBit_zero]

/-! ## Neighbours -/

theorem trailingZeros_of_odd {fuel k : ℕ} (hk : k % 2 = 1) : trailingZeros (fuel + 1) k = 0 :=
  if_pos hk

theorem trailingZeros_of_even {fuel k : ℕ} (hk : k % 2 = 0) :
    trailingZeros (fuel + 1) k = trailingZeros fuel (k / 2) + 1 :=
  if_neg (by omega)

/-- The induction is on the fuel: an even number `k + 1` has its lowest set bit one place above
that of its half, and the code of its half is its own code without the lowest bit. -/
theorem testBit_grayCode_trailingZeros (fuel k i : ℕ) (hfuel : k + 1 ≤ fuel) :
    (grayCode (k + 1)).testBit i =
      ((grayCode k).testBit i ^^ decide (i = trailingZeros fuel (k + 1))) := by
  induction fuel generalizing k i with
  | zero => omega
  | succ fuel ih =>
    rcases Nat.mod_two_eq_zero_or_one (k + 1) with heven | hodd
    · obtain ⟨half, hhalf⟩ : ∃ half, (k + 1) / 2 = half + 1 := ⟨(k + 1) / 2 - 1, by omega⟩
      have hk : k / 2 = half := by omega
      rw [trailingZeros_of_even heven, hhalf]
      cases i with
      | zero =>
        have hodd : k % 2 = 1 := by omega
        rw [testBit_grayCode_zero, testBit_grayCode_zero, hhalf, hk]
        rcases Nat.mod_two_eq_zero_or_one half with h | h <;> simp [hodd, Nat.add_mod, h]
      | succ i =>
        rw [testBit_grayCode_div_two, testBit_grayCode_div_two k, hhalf, hk, ih half i (by omega)]
        simp
    · have hk : (k + 1) / 2 = k / 2 := by omega
      rw [trailingZeros_of_odd hodd]
      cases i with
      | zero =>
        have heven : ¬ k % 2 = 1 := by omega
        rw [testBit_grayCode_zero, testBit_grayCode_zero, hk]
        simp [hodd, heven]
      | succ i =>
        rw [testBit_grayCode_div_two, testBit_grayCode_div_two k, hk]
        simp

/-- Neighbours in the code differ at the lowest set bit of the greater index. -/
theorem testBit_grayCode_succ (k i : ℕ) :
    (grayCode (k + 1)).testBit i =
      ((grayCode k).testBit i ^^ decide (i = lowestSetBit (k + 1))) :=
  testBit_grayCode_trailingZeros (k + 1) k i le_rfl

theorem two_pow_trailingZeros_le (fuel k : ℕ) (hk : 0 < k) (hfuel : k ≤ fuel) :
    2 ^ trailingZeros fuel k ≤ k := by
  induction fuel generalizing k with
  | zero => omega
  | succ fuel ih =>
    rcases Nat.mod_two_eq_zero_or_one k with heven | hodd
    · have := ih (k / 2) (by omega) (by omega)
      rw [trailingZeros_of_even heven, pow_succ]
      omega
    · rw [trailingZeros_of_odd hodd, pow_zero]
      exact hk

theorem lowestSetBit_lt {n k : ℕ} (hk : k + 1 < 2 ^ n) : lowestSetBit (k + 1) < n := by
  have hle := two_pow_trailingZeros_le (k + 1) (k + 1) (by omega) le_rfl
  exact (Nat.pow_lt_pow_iff_right Nat.one_lt_two).1 (lt_of_le_of_lt hle hk)

/-! ## The code is a permutation -/

theorem grayCode_lt {n k : ℕ} (hk : k < 2 ^ n) : grayCode k < 2 ^ n :=
  Nat.xor_lt_two_pow hk (lt_of_le_of_lt (Nat.shiftRight_le k 1) hk)

theorem grayCode_injective : Function.Injective grayCode := by
  intro a b hab
  -- the exclusive or of two numbers with one code is its own half
  have hbit : ∀ i, (a ^^^ b).testBit i = (a ^^^ b).testBit (i + 1) := by
    intro i
    have h := congrArg (fun c => c.testBit i) hab
    simp only [testBit_grayCode] at h
    rw [Nat.testBit_xor, Nat.testBit_xor]
    revert h
    cases a.testBit i <;> cases a.testBit (i + 1) <;> cases b.testBit i <;>
      cases b.testBit (i + 1) <;> simp
  have hhalf : (a ^^^ b) / 2 = a ^^^ b := by
    apply Nat.eq_of_testBit_eq
    intro i
    rw [← Nat.testBit_succ, ← hbit]
  exact Nat.xor_eq_zero_iff.1 (by omega)

theorem exists_grayCode {n m : ℕ} (hm : m < 2 ^ n) : ∃ k < 2 ^ n, grayCode k = m := by
  let code : Fin (2 ^ n) → Fin (2 ^ n) := fun k => ⟨grayCode k, grayCode_lt k.isLt⟩
  have hinj : Function.Injective code := fun a b h =>
    Fin.ext (grayCode_injective (congrArg Fin.val h))
  obtain ⟨k, hk⟩ := Finite.surjective_of_injective hinj ⟨m, hm⟩
  exact ⟨k, k.isLt, congrArg Fin.val hk⟩

end BinarySplitting.Qubo
