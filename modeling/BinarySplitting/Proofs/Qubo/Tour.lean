import Mathlib.Data.Set.Function
import BinarySplitting.Proofs.Qubo.Search

/-!
# The walk visits every binary vector once

In exact arithmetic the walk of the exhaustive search carries along what belongs to the vector at which it
stands: after `k` flips the entries are the bits of the code of `k`, the product is that of the symmetric form
with them, and the value is theirs (`Walk.StandsAt`). Flips with numbers below `2 ^ n` change an index that
exists, and the vectors with these numbers are all binary vectors, none of them twice
(`Qubo.walk_tours`). That numbers give different vectors comes from the code (`grayVec_injOn`), that the walk
follows the numbers from its invariant (`walk_at`).
-/

namespace BinarySplitting.Qubo

variable {n : ℕ}

/-! ## Numbers of vectors -/

/-- Two numbers below `2 ^ n` with one vector have one code: its bits from `n` on are zero. -/
theorem grayVec_injOn (n : ℕ) : Set.InjOn (grayVec (α := Exact) n) (Set.Iio (2 ^ n)) := by
  intro j hj k hk heq
  apply grayCode_injective
  apply Nat.eq_of_testBit_eq
  intro i
  by_cases hi : i < n
  · have hentry := congrArg (fun v : Vec Exact => v i) heq
    simp only [grayVec_eq_ofReal, Vec.get_ofReal _ hi, grayBits, Exact.real_inj] at hentry
    revert hentry
    cases (grayCode j).testBit i <;> cases (grayCode k).testBit i <;> simp
  · have hlow : ∀ m < 2 ^ n, (grayCode m).testBit i = false := fun m hm =>
      Nat.testBit_lt_two_pow ((grayCode_lt hm).trans_le (Nat.pow_le_pow_right two_pos (Nat.le_of_not_lt hi)))
    rw [hlow j hj, hlow k hk]

theorem grayVec_bijOn (n : ℕ) :
    Set.BijOn (grayVec (α := Exact) n) (Set.Iio (2 ^ n)) {x | x.IsBinary n} := by
  refine ⟨fun k _ => isBinary_grayVec n k, grayVec_injOn n, fun x hx => ?_⟩
  obtain ⟨k, hk, rfl⟩ := exists_grayVec hx
  exact ⟨k, hk, rfl⟩

/-! ## The walk -/

/-- After `k` flips a walk stands at the vector whose entries are the bits of the code of `k`, with the product
and the value of that vector. -/
structure Walk.StandsAt (q : Qubo Exact) (k : ℕ) (w : Walk Exact) : Prop where
  size : w.x.size = q.numVariables
  entries : ∀ i < q.numVariables, w.x i = if (k ^^^ (k >>> 1)).testBit i then 1.0 else 0.0
  product : w.product = q.quadratic.symmetricPart.mulVec w.x
  value : w.value = q.value w.x

theorem Walk.At.standsAt {q : Qubo Exact} {k : ℕ} {w : Walk Exact} (h : Walk.At q k w) : w.StandsAt q k where
  size := by rw [h.x, grayVec, Vec.size_ofFn]
  entries i hi := by
    rw [h.x, grayVec, Vec.get_ofFn _ hi]
    rfl
  product := h.product
  value := h.value

/-- **The walk visits every binary vector once**, and at each it knows the product and the value. -/
theorem walk_tours {q : Qubo Exact} (hfin : q.isFinite = true) (hsquare : q.isSquare = true) :
    (∀ k < 2 ^ q.numVariables, (walk q k).StandsAt q k) ∧
      (∀ k, k + 1 < 2 ^ q.numVariables → lowestSetBit (k + 1) < q.numVariables ∧
        walk q (k + 1) =
          (walk q k).flip q.quadratic.symmetricPart q.linear (lowestSetBit (k + 1))) ∧
      Set.BijOn (fun k => (walk q k).x) (Set.Iio (2 ^ q.numVariables))
        {x | x.IsBinary q.numVariables} := by
  obtain ⟨Q, l, c, hq⟩ := eq_ofReal hsquare hfin
  have hat : ∀ k < 2 ^ q.numVariables, Walk.At q k (walk q k) := by
    intro k hk
    have h := walk_at Q l c hk
    rwa [← hq] at h
  refine ⟨fun k hk => (hat k hk).standsAt, fun k hk => ⟨lowestSetBit_lt hk, ?_⟩, ?_⟩
  · rw [walk, Nat.fold_succ]
    rfl
  · exact (grayVec_bijOn q.numVariables).congr fun k hk => (hat k hk).x.symm

/-- A form that is not symmetric, in three variables. -/
theorem walk_tours_triple :
    let q := ofReal !![1, -3, 0; 0, 1, 2; 4, 0, -1] ![1, 0, -2] 5
    q.isFinite = true ∧ q.isSquare = true ∧ q.numVariables = 3 ∧
      (walk q 5).StandsAt q 5 ∧ lowestSetBit 6 < q.numVariables ∧
      Set.BijOn (fun k => (walk q k).x) (Set.Iio (2 ^ q.numVariables)) {x | x.IsBinary q.numVariables} := by
  intro q
  have hfin : q.isFinite = true := isFinite_ofReal _ _ _
  have hsquare : q.isSquare = true := isSquare_ofReal _ _ _
  have hcount : q.numVariables = 3 := numVariables_ofReal _ _ _
  obtain ⟨hstands, hflips, hvisits⟩ := walk_tours hfin hsquare
  exact ⟨hfin, hsquare, hcount, hstands 5 (by rw [hcount]; decide), (hflips 5 (by rw [hcount]; decide)).1,
    hvisits⟩

end BinarySplitting.Qubo
